import Mathlib.Data.BitVec
import Mathlib.Data.List.Basic
import Mathlib.Tactic.IntervalCases

/- The header of an ADTS frame: two structures of bit-fields, and its seven bytes. -/
namespace Adts

structure AdtsFixedHeader where
  syncword : BitVec 12
  id : BitVec 1
  layer : BitVec 2
  protectionAbsent : BitVec 1
  profile : BitVec 2
  samplingFrequencyIndex : BitVec 4
  privateBit : BitVec 1
  channelConfiguration : BitVec 3
  originalCopy : BitVec 1
  home : BitVec 1
  deriving DecidableEq, Repr

structure AdtsVariableHeader where
  copyrightIdentificationBit : BitVec 1
  copyrightIdentificationStart : BitVec 1
  aacFrameLength : BitVec 13
  adtsBufferFullness : BitVec 11
  numberOfRawDataBlocksInFrame : BitVec 2
  deriving DecidableEq, Repr

abbrev Buff := Vector (BitVec 8) 7

def readAdts (buff : Buff) : BitVec 64 :=
  let adts := buff[0].setWidth 64
  let adts := adts <<< 8 ||| buff[1].setWidth 64
  let adts := adts <<< 8 ||| buff[2].setWidth 64
  let adts := adts <<< 8 ||| buff[3].setWidth 64
  let adts := adts <<< 8 ||| buff[4].setWidth 64
  let adts := adts <<< 8 ||| buff[5].setWidth 64
  adts <<< 8 ||| buff[6].setWidth 64

theorem buff_toList (buff : Buff) :
    buff.toList = [buff[0], buff[1], buff[2], buff[3], buff[4], buff[5], buff[6]] := by
  apply List.ext_getElem
  · simp
  · intro i low high
    have short : i < 7 := high
    interval_cases i <;> simp

theorem buff_eta (buff : Buff) :
    #v[buff[0], buff[1], buff[2], buff[3], buff[4], buff[5], buff[6]] = buff := by
  apply Vector.toList_inj.mp
  rw [buff_toList buff]
  rfl

def bytes (buff : Buff) : List Nat := buff.toList.map BitVec.toNat

theorem bytes_eq (buff : Buff) :
    bytes buff = [buff[0].toNat, buff[1].toNat, buff[2].toNat, buff[3].toNat, buff[4].toNat,
      buff[5].toNat, buff[6].toNat] := by
  rw [bytes, buff_toList buff]
  rfl

def getFixedHeader (buff : Buff) : AdtsFixedHeader :=
  let adts := readAdts buff
  { syncword := (adts >>> 44).setWidth 12
    id := (adts >>> 43 &&& 0x01).setWidth 1
    layer := (adts >>> 41 &&& 0x03).setWidth 2
    protectionAbsent := (adts >>> 40 &&& 0x01).setWidth 1
    profile := (adts >>> 38 &&& 0x03).setWidth 2
    samplingFrequencyIndex := (adts >>> 34 &&& 0x0f).setWidth 4
    privateBit := (adts >>> 33 &&& 0x01).setWidth 1
    channelConfiguration := (adts >>> 30 &&& 0x07).setWidth 3
    originalCopy := (adts >>> 29 &&& 0x01).setWidth 1
    home := (adts >>> 28 &&& 0x01).setWidth 1 }

/-- `get_variable_header`. The mask of the frame length is one bit wider than the field. -/
def getVariableHeader (buff : Buff) : AdtsVariableHeader :=
  let adts := readAdts buff
  { copyrightIdentificationBit := (adts >>> 27 &&& 0x01).setWidth 1
    copyrightIdentificationStart := (adts >>> 26 &&& 0x01).setWidth 1
    aacFrameLength := (adts >>> 13 &&& (2 ^ 14 - 1)).setWidth 13
    adtsBufferFullness := (adts >>> 2 &&& (2 ^ 11 - 1)).setWidth 11
    numberOfRawDataBlocksInFrame := (adts &&& 0x03).setWidth 2 }

def convertAdtsHeader2int64 (fixed : AdtsFixedHeader) (variable_ : AdtsVariableHeader) :
    BitVec 64 :=
  let ret := fixed.syncword.setWidth 64
  let ret := ret <<< 1 ||| fixed.id.setWidth 64
  let ret := ret <<< 2 ||| fixed.layer.setWidth 64
  let ret := ret <<< 1 ||| fixed.protectionAbsent.setWidth 64 &&& 0x01
  let ret := ret <<< 2 ||| fixed.profile.setWidth 64
  let ret := ret <<< 4 ||| fixed.samplingFrequencyIndex.setWidth 64 &&& 0x0f
  let ret := ret <<< 1 ||| fixed.privateBit.setWidth 64 &&& 0x01
  let ret := ret <<< 3 ||| fixed.channelConfiguration.setWidth 64 &&& 0x07
  let ret := ret <<< 1 ||| fixed.originalCopy.setWidth 64 &&& 0x01
  let ret := ret <<< 1 ||| fixed.home.setWidth 64 &&& 0x01
  let ret := ret <<< 1 ||| variable_.copyrightIdentificationBit.setWidth 64 &&& 0x01
  let ret := ret <<< 1 ||| variable_.copyrightIdentificationStart.setWidth 64 &&& 0x01
  let ret := ret <<< 13 ||| variable_.aacFrameLength.setWidth 64 &&& (2 ^ 13 - 1)
  let ret := ret <<< 11 ||| variable_.adtsBufferFullness.setWidth 64 &&& (2 ^ 11 - 1)
  ret <<< 2 ||| variable_.numberOfRawDataBlocksInFrame.setWidth 64 &&& (2 ^ 2 - 1)

def convertAdtsHeader2char (fixed : AdtsFixedHeader) (variable_ : AdtsVariableHeader) : Buff :=
  let value := convertAdtsHeader2int64 fixed variable_
  #v[(value >>> 48 &&& 0xff).setWidth 8, (value >>> 40 &&& 0xff).setWidth 8,
    (value >>> 32 &&& 0xff).setWidth 8, (value >>> 24 &&& 0xff).setWidth 8,
    (value >>> 16 &&& 0xff).setWidth 8, (value >>> 8 &&& 0xff).setWidth 8,
    (value &&& 0xff).setWidth 8]

def setFixedHeader : AdtsFixedHeader :=
  { syncword := 0xFF
    id := 0
    layer := 0
    protectionAbsent := 1
    profile := 1
    samplingFrequencyIndex := 4
    privateBit := 0
    channelConfiguration := 2
    originalCopy := 0
    home := 0 }

def setVariableHeader (aacRawDataLength : BitVec 32) : AdtsVariableHeader :=
  { copyrightIdentificationBit := 0
    copyrightIdentificationStart := 0
    aacFrameLength := (aacRawDataLength + 7).setWidth 13
    adtsBufferFullness := 0x7f
    numberOfRawDataBlocksInFrame := 2 }

end Adts
