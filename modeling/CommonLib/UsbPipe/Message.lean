import Mathlib.Data.List.Basic
import Mathlib.Data.Nat.Basic
import Mathlib.Algebra.Group.Nat.Defs

/- The messages of the pipe as they lie in memory: four tag bytes, three ints with the least
   significant byte first, the data. -/
namespace UsbPipe

def maxSize : Nat := 256 * 1024

def byteAt (w : UInt32) (k : Nat) : UInt8 := UInt8.ofNat (w.toNat / 256 ^ k)

def wordAt (mem : Nat → UInt8) (o : Nat) : UInt32 :=
  UInt32.ofNat ((mem o).toNat + (mem (o + 1)).toNat * 256 + (mem (o + 2)).toNat * 65536 +
    (mem (o + 3)).toNat * 16777216)

structure Message where
  identify : Nat → UInt8
  msgType : UInt32
  seq : UInt32
  dateLen : UInt32
  data : Nat → UInt8

def MSG_TYPE_REQUEST : UInt32 := 0
def MSG_TYPE_RESPONSE : UInt32 := 1

def Message.memory (m : Message) : Nat → UInt8 := fun i =>
  if i < 4 then m.identify i
  else if i < 8 then byteAt m.msgType (i - 4)
  else if i < 12 then byteAt m.seq (i - 8)
  else if i < 16 then byteAt m.dateLen (i - 12)
  else m.data (i - 16)

def Message.ofMemory (mem : Nat → UInt8) : Message :=
  ⟨mem, wordAt mem 4, wordAt mem 8, wordAt mem 12, fun i => mem (16 + i)⟩

def Message.zero : Message := ⟨fun _ => 0, 0, 0, 0, fun _ => 0⟩

def Message.payload (m : Message) : List UInt8 := (List.range m.dateLen.toNat).map m.data

structure Content where
  identify : List UInt8
  msgType : UInt32
  seq : UInt32
  dateLen : UInt32
  payload : List UInt8
  deriving DecidableEq, Repr

def Message.content (m : Message) : Content :=
  ⟨(List.range 4).map m.identify, m.msgType, m.seq, m.dateLen, m.payload⟩

def pipeTag : Nat → UInt8 := fun i => [0x50, 0x49, 0x50, 0x45].getD i 0

/-- `zw_uptp_send`: the message with its tag, and the bytes passed to `write`. -/
def zwUptpSend (msg : Message) : Message × List UInt8 :=
  let dataLen := msg.dateLen.toNat + 16
  let msg := { msg with identify := pipeTag }
  (msg, (List.range dataLen).map msg.memory)

/-- `zw_uptp_recive` when the read gave `result`: the bytes are copied over the struct. -/
def zwUptpRecive (result : List UInt8) (msg : Message) : Message :=
  .ofMemory fun i => if i < result.length then result.getD i 0 else msg.memory i

/-! ### Words in memory -/

theorem byteAt_wordAt (mem : Nat → UInt8) (o : Nat) {k : Nat} (small : k < 4) :
    byteAt (wordAt mem o) k = mem (o + k) := by
  have b0 : (mem o).toNat < 256 := (mem o).toNat_lt
  have b1 : (mem (o + 1)).toNat < 256 := (mem (o + 1)).toNat_lt
  have b2 : (mem (o + 2)).toNat < 256 := (mem (o + 2)).toNat_lt
  have b3 : (mem (o + 3)).toNat < 256 := (mem (o + 3)).toNat_lt
  apply UInt8.toNat_inj.mp
  unfold byteAt wordAt
  rw [UInt8.toNat_ofNat', UInt32.toNat_ofNat']
  obtain rfl | rfl | rfl | rfl : k = 0 ∨ k = 1 ∨ k = 2 ∨ k = 3 := by omega
  · simp only [Nat.pow_zero, Nat.add_zero]
    omega
  · simp only [Nat.pow_one]
    omega
  · simp only [Nat.reducePow]
    omega
  · simp only [Nat.reducePow]
    omega

theorem wordAt_byteAt {mem : Nat → UInt8} {o : Nat} {w : UInt32}
    (bytes : ∀ k < 4, mem (o + k) = byteAt w k) : wordAt mem o = w := by
  have wide := w.toNat_lt
  have b0 := congrArg UInt8.toNat (bytes 0 (by omega))
  have b1 := congrArg UInt8.toNat (bytes 1 (by omega))
  have b2 := congrArg UInt8.toNat (bytes 2 (by omega))
  have b3 := congrArg UInt8.toNat (bytes 3 (by omega))
  unfold byteAt at b0 b1 b2 b3
  simp only [UInt8.toNat_ofNat', Nat.pow_zero, Nat.pow_one, Nat.reducePow,
    Nat.add_zero] at b0 b1 b2 b3
  apply UInt32.toNat_inj.mp
  unfold wordAt
  rw [UInt32.toNat_ofNat', b0, b1, b2, b3]
  omega

/-! ### Content and bytes -/

theorem memory_identify (m : Message) {i : Nat} (low : i < 4) :
    m.memory i = m.identify i := if_pos low

theorem memory_msgType (m : Message) {k : Nat} (low : k < 4) :
    m.memory (4 + k) = byteAt m.msgType k := by
  unfold Message.memory
  rw [if_neg (by omega), if_pos (by omega), Nat.add_sub_cancel_left]

theorem memory_seq (m : Message) {k : Nat} (low : k < 4) : m.memory (8 + k) = byteAt m.seq k := by
  unfold Message.memory
  rw [if_neg (by omega), if_neg (by omega), if_pos (by omega), Nat.add_sub_cancel_left]

theorem memory_dateLen (m : Message) {k : Nat} (low : k < 4) :
    m.memory (12 + k) = byteAt m.dateLen k := by
  unfold Message.memory
  rw [if_neg (by omega), if_neg (by omega), if_neg (by omega), if_pos (by omega), Nat.add_sub_cancel_left]

theorem memory_data (m : Message) (k : Nat) : m.memory (16 + k) = m.data k := by
  unfold Message.memory
  rw [if_neg (by omega), if_neg (by omega), if_neg (by omega), if_neg (by omega), Nat.add_sub_cancel_left]

theorem memory_zero (i : Nat) : Message.zero.memory i = 0 := by
  have zero : ∀ k, byteAt 0 k = 0 := by
    intro k
    simp [byteAt]
  unfold Message.memory Message.zero
  simp [zero]

theorem content_ofMemory {mem : Nat → UInt8} {m : Message} :
    (Message.ofMemory mem).content = m.content ↔ ∀ i < m.dateLen.toNat + 16,
        mem i = m.memory i := by
  constructor
  · intro same i small
    simp only [Message.content, Message.ofMemory, Message.payload, Content.mk.injEq] at same
    obtain ⟨identify, msgType, seq, dateLen, payload⟩ := same
    rw [dateLen] at payload
    rw [List.map_inj_left] at identify payload
    obtain low | ⟨k, low, rfl⟩ | ⟨k, low, rfl⟩ | ⟨k, low, rfl⟩ | ⟨k, rfl⟩ :
        i < 4 ∨ (∃ k < 4, i = 4 + k) ∨ (∃ k < 4, i = 8 + k) ∨ (∃ k < 4, i = 12 + k) ∨ ∃ k,
            i = 16 + k := by
      by_cases a : i < 4
      · exact .inl a
      · by_cases b : i < 8
        · exact .inr (.inl ⟨i - 4, by omega, by omega⟩)
        · by_cases c : i < 12
          · exact .inr (.inr (.inl ⟨i - 8, by omega, by omega⟩))
          · by_cases d : i < 16
            · exact .inr (.inr (.inr (.inl ⟨i - 12, by omega, by omega⟩)))
            · exact .inr (.inr (.inr (.inr ⟨i - 16, by omega⟩)))
    · rw [memory_identify m low]
      exact identify i (List.mem_range.mpr low)
    · rw [memory_msgType m low, ← msgType, byteAt_wordAt mem 4 low]
    · rw [memory_seq m low, ← seq, byteAt_wordAt mem 8 low]
    · rw [memory_dateLen m low, ← dateLen, byteAt_wordAt mem 12 low]
    · rw [memory_data m k]
      exact payload k (List.mem_range.mpr (by omega))
  · intro same
    have msgType : wordAt mem 4 = m.msgType := by
      apply wordAt_byteAt
      intro k low
      rw [same (4 + k) (by omega), memory_msgType m low]
    have seq : wordAt mem 8 = m.seq := by
      apply wordAt_byteAt
      intro k low
      rw [same (8 + k) (by omega), memory_seq m low]
    have dateLen : wordAt mem 12 = m.dateLen := by
      apply wordAt_byteAt
      intro k low
      rw [same (12 + k) (by omega), memory_dateLen m low]
    simp only [Message.content, Message.ofMemory, Message.payload, msgType, seq, dateLen,
      Content.mk.injEq,
      true_and]
    constructor
    · apply List.map_congr_left
      intro i low
      have low := List.mem_range.mp low
      rw [same i (by omega), memory_identify m low]
    · apply List.map_congr_left
      intro i low
      have low := List.mem_range.mp low
      rw [same (16 + i) (by omega), memory_data]

end UsbPipe
