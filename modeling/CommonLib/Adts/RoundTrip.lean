import CommonLib.BitFields.Fields
import CommonLib.Adts.Header

/- Headers and bytes are two divisions of the same 56 bits into fields. -/
namespace Adts
open BitFields

def widths : List Nat := [12, 1, 2, 1, 2, 4, 1, 3, 1, 1, 1, 1, 13, 11, 2]

def values (fixed : AdtsFixedHeader) (variable_ : AdtsVariableHeader) : List Nat :=
  [fixed.syncword.toNat, fixed.id.toNat, fixed.layer.toNat, fixed.protectionAbsent.toNat,
    fixed.profile.toNat, fixed.samplingFrequencyIndex.toNat, fixed.privateBit.toNat,
    fixed.channelConfiguration.toNat, fixed.originalCopy.toNat, fixed.home.toNat,
    variable_.copyrightIdentificationBit.toNat, variable_.copyrightIdentificationStart.toNat,
    variable_.aacFrameLength.toNat, variable_.adtsBufferFullness.toNat,
    variable_.numberOfRawDataBlocksInFrame.toNat]

def byteWidths : List Nat := List.replicate 7 8

theorem values_injective {f f' : AdtsFixedHeader} {v v' : AdtsVariableHeader}
    (same : values f v = values f' v') : f = f' ∧ v = v' := by
  obtain ⟨_, _, _, _, _, _, _, _, _, _⟩ := f
  obtain ⟨_, _, _, _, _, _, _, _, _, _⟩ := f'
  obtain ⟨_, _, _, _, _⟩ := v
  obtain ⟨_, _, _, _, _⟩ := v'
  simp only [values, List.cons.injEq, BitVec.toNat_inj] at same
  simp [same]

theorem bytes_injective {a b : Buff} (same : bytes a = bytes b) : a = b := by
  have lists : a.toList = b.toList := List.map_injective_iff.mpr BitVec.toNat_injective same
  exact Vector.toList_inj.mp lists

/-! ### Words and their fields -/

theorem wide_toNat {w : Nat} (x : BitVec w) (narrow : w ≤ 64) :
    (x.setWidth 64).toNat = x.toNat := by
  rw [BitVec.toNat_setWidth]
  exact Nat.mod_eq_of_lt (Nat.lt_of_lt_of_le x.isLt (Nat.pow_le_pow_right Nat.two_pos narrow))

theorem masked_toNat {w : Nat} (x : BitVec w) (narrow : w ≤ 64) (mask : BitVec 64)
    (ones : mask.toNat = 2 ^ w - 1) : (x.setWidth 64 &&& mask).toNat = x.toNat := by
  rw [BitVec.toNat_and, wide_toNat x narrow, ones, Nat.and_two_pow_sub_one_eq_mod,
    Nat.mod_eq_of_lt x.isLt]

theorem readAdts_holds (buff : Buff) : Holds (readAdts buff) byteWidths (bytes buff) := by
  rw [bytes_eq]
  have h0 := Holds.start (wide_toNat buff[0] (by decide)) buff[0].isLt
  have h1 := h0.push (wide_toNat buff[1] (by decide)) buff[1].isLt (by decide)
  have h2 := h1.push (wide_toNat buff[2] (by decide)) buff[2].isLt (by decide)
  have h3 := h2.push (wide_toNat buff[3] (by decide)) buff[3].isLt (by decide)
  have h4 := h3.push (wide_toNat buff[4] (by decide)) buff[4].isLt (by decide)
  have h5 := h4.push (wide_toNat buff[5] (by decide)) buff[5].isLt (by decide)
  exact h5.push (wide_toNat buff[6] (by decide)) buff[6].isLt (by decide)

theorem values_read (buff : Buff) :
    values (getFixedHeader buff) (getVariableHeader buff) =
        unpack widths (readAdts buff).toNat := by
  unfold values getFixedHeader getVariableHeader
  dsimp only
  rw [shifted_toNat, field_toNat _ 43 1 1 (by decide) _ rfl, field_toNat _ 41 2 2 (by decide) _ rfl,
    field_toNat _ 40 1 1 (by decide) _ rfl, field_toNat _ 38 2 2 (by decide) _ rfl,
    field_toNat _ 34 4 4 (by decide) _ rfl, field_toNat _ 33 1 1 (by decide) _ rfl,
    field_toNat _ 30 3 3 (by decide) _ rfl, field_toNat _ 29 1 1 (by decide) _ rfl,
    field_toNat _ 28 1 1 (by decide) _ rfl, field_toNat _ 27 1 1 (by decide) _ rfl,
    field_toNat _ 26 1 1 (by decide) _ rfl, field_toNat _ 13 14 13 (by decide) _ rfl,
    field_toNat _ 2 11 11 (by decide) _ rfl, lowest_toNat _ 2 _ rfl]
  rfl

theorem convert_holds (fixed : AdtsFixedHeader) (variable_ : AdtsVariableHeader) :
    Holds (convertAdtsHeader2int64 fixed variable_) widths (values fixed variable_) := by
  have h := Holds.start (wide_toNat fixed.syncword (by decide)) fixed.syncword.isLt
  have h := h.push (wide_toNat fixed.id (by decide)) fixed.id.isLt (by decide)
  have h := h.push (wide_toNat fixed.layer (by decide)) fixed.layer.isLt (by decide)
  have h := h.push (masked_toNat fixed.protectionAbsent (by decide) 0x01 rfl)
    fixed.protectionAbsent.isLt (by decide)
  have h := h.push (wide_toNat fixed.profile (by decide)) fixed.profile.isLt (by decide)
  have h := h.push (masked_toNat fixed.samplingFrequencyIndex (by decide) 0x0f rfl)
    fixed.samplingFrequencyIndex.isLt (by decide)
  have h := h.push (masked_toNat fixed.privateBit (by decide) 0x01 rfl)
    fixed.privateBit.isLt (by decide)
  have h := h.push (masked_toNat fixed.channelConfiguration (by decide) 0x07 rfl)
    fixed.channelConfiguration.isLt (by decide)
  have h := h.push (masked_toNat fixed.originalCopy (by decide) 0x01 rfl)
    fixed.originalCopy.isLt (by decide)
  have h := h.push (masked_toNat fixed.home (by decide) 0x01 rfl) fixed.home.isLt (by decide)
  have h := h.push (masked_toNat variable_.copyrightIdentificationBit (by decide) 0x01 rfl)
    variable_.copyrightIdentificationBit.isLt (by decide)
  have h := h.push (masked_toNat variable_.copyrightIdentificationStart (by decide) 0x01 rfl)
    variable_.copyrightIdentificationStart.isLt (by decide)
  have h := h.push (masked_toNat variable_.aacFrameLength (by decide) (2 ^ 13 - 1) rfl)
    variable_.aacFrameLength.isLt (by decide)
  have h := h.push (masked_toNat variable_.adtsBufferFullness (by decide) (2 ^ 11 - 1) rfl)
    variable_.adtsBufferFullness.isLt (by decide)
  have h := h.push (masked_toNat variable_.numberOfRawDataBlocksInFrame (by decide) (2 ^ 2 - 1) rfl)
    variable_.numberOfRawDataBlocksInFrame.isLt (by decide)
  simp only [List.cons_append, List.nil_append] at h
  exact h

theorem bytes_written (fixed : AdtsFixedHeader) (variable_ : AdtsVariableHeader) :
    bytes (convertAdtsHeader2char fixed variable_) =
      unpack byteWidths (convertAdtsHeader2int64 fixed variable_).toNat := by
  rw [bytes_eq]
  unfold convertAdtsHeader2char
  simp only [Vector.getElem_mk, List.getElem_toArray, List.getElem_cons_zero,
    List.getElem_cons_succ]
  rw [field_toNat _ 48 8 8 (by decide) _ rfl, field_toNat _ 40 8 8 (by decide) _ rfl,
    field_toNat _ 32 8 8 (by decide) _ rfl, field_toNat _ 24 8 8 (by decide) _ rfl,
    field_toNat _ 16 8 8 (by decide) _ rfl, field_toNat _ 8 8 8 (by decide) _ rfl,
    lowest_toNat _ 8 _ rfl]
  rfl

theorem widths_total : byteWidths.sum = widths.sum := by decide

theorem headers_read_back (fixed : AdtsFixedHeader) (variable_ : AdtsVariableHeader) :
    getFixedHeader (convertAdtsHeader2char fixed variable_) = fixed ∧
      getVariableHeader (convertAdtsHeader2char fixed variable_) = variable_ := by
  apply values_injective
  rw [values_read, (readAdts_holds _).value, bytes_written, pack_unpack, widths_total]
  rw [unpack_mod widths (Nat.mod_mod _ _), (convert_holds fixed variable_).value]
  exact unpack_pack (convert_holds fixed variable_).fit

theorem bytes_written_back (buff : Buff) :
    convertAdtsHeader2char (getFixedHeader buff) (getVariableHeader buff) = buff := by
  apply bytes_injective
  rw [bytes_written, (convert_holds _ _).value, values_read, pack_unpack, ← widths_total]
  rw [unpack_mod byteWidths (Nat.mod_mod _ _), (readAdts_holds buff).value]
  exact unpack_pack (readAdts_holds buff).fit

/-- Reading gives back the headers written, and writing the bytes read. -/
theorem header_roundTrip :
    (∀ fixed variable_, getFixedHeader (convertAdtsHeader2char fixed variable_) = fixed ∧
      getVariableHeader (convertAdtsHeader2char fixed variable_) = variable_) ∧
    (∀ buff, convertAdtsHeader2char (getFixedHeader buff) (getVariableHeader buff) = buff) := by
  constructor
  · intro fixed variable_
    exact headers_read_back fixed variable_
  · intro buff
    exact bytes_written_back buff

end Adts
