import Mathlib.Logic.Function.Basic
import Mathlib.Data.List.Basic
import Mathlib.Algebra.Group.Nat.Defs

/- The instance of the frame protocol as the build in src/tinyframe configures it: 16-bit ID,
   LEN and TYPE, inverted 8-bit XOR checksums, a SOF byte. -/

inductive TFState where
  | SOF | LEN | HEAD_CKSUM | ID | TYPE | DATA | DATA_CKSUM
  deriving DecidableEq, Repr

structure IdListener where
  id : UInt16
  fn : Option Nat
  timeout : UInt16
  timeoutMax : UInt16
  userdata : Option Nat
  userdata2 : Option Nat

structure TypeListener where
  type : UInt16
  fn : Option Nat

structure GenericListener where
  fn : Option Nat

/-- `struct TF_Msg_`; `data` is the memory the pointer leads to. -/
structure Msg where
  frameId : UInt16
  isResponse : Bool
  type : UInt16
  data : Option (Nat → UInt8)
  len : UInt16
  userdata : Option Nat
  userdata2 : Option Nat

/-- `struct TinyFrame_`, its arrays as functions from the index. -/
structure TinyFrame where
  peerBit : Bool
  nextId : UInt16
  state : TFState
  parserTimeoutTicks : UInt16
  id : UInt16
  len : UInt16
  data : Nat → UInt8
  rxi : UInt16
  cksum : UInt8
  refCksum : UInt8
  type : UInt16
  discardData : Bool
  sendbuf : Nat → UInt8
  txPos : Nat
  txLen : Nat
  txCksum : UInt8
  softLock : Bool
  idListeners : Nat → IdListener
  typeListeners : Nat → TypeListener
  genericListeners : Nat → GenericListener
  countIdLst : Nat
  countTypeLst : Nat
  countGenericLst : Nat

namespace TinyFrame

def sofByte : UInt8 := 0x01
def maxPayloadRx : UInt16 := 128
def sendbufLen : Nat := 2048
def maxIdLst : Nat := 10
def maxTypeLst : Nat := 10
def maxGenLst : Nat := 5
def parserTimeout : UInt16 := 10

/-- `TF_InitStatic`: all memory zero, but for the peer bit. -/
def initStatic (peerBit : Bool) : TinyFrame where
  peerBit := peerBit
  nextId := 0
  state := .SOF
  parserTimeoutTicks := 0
  id := 0
  len := 0
  data := fun _ => 0
  rxi := 0
  cksum := 0
  refCksum := 0
  type := 0
  discardData := false
  sendbuf := fun _ => 0
  txPos := 0
  txLen := 0
  txCksum := 0
  softLock := false
  idListeners := fun _ => ⟨0, none, 0, 0, none, none⟩
  typeListeners := fun _ => ⟨0, none⟩
  genericListeners := fun _ => ⟨none⟩
  countIdLst := 0
  countTypeLst := 0
  countGenericLst := 0

/-! ### Checksums -/

def cksumStart : UInt8 := 0
def cksumAdd (cksum byte : UInt8) : UInt8 := cksum ^^^ byte
def cksumEnd (cksum : UInt8) : UInt8 := ~~~cksum

def cksumOf (bytes : List UInt8) : UInt8 := cksumEnd (bytes.foldl cksumAdd cksumStart)

/-! ### Numbers on the wire -/

/-- `COLLECT_NUMBER`: the shift is done in `int`, the result cut to the field. -/
def collect16 (dest : UInt16) (c : UInt8) : UInt16 :=
  ((dest.toUInt32 <<< 8) ||| c.toUInt32).toUInt16
def collect8 (dest : UInt8) (c : UInt8) : UInt8 := ((dest.toUInt32 <<< 8) ||| c.toUInt32).toUInt8

def writenum16 (num : UInt16) : List UInt8 :=
  [((num >>> 8) &&& 0xFF).toUInt8, (num &&& 0xFF).toUInt8]

theorem shifted_or (n : Nat) (c : UInt8) : n <<< 8 ||| c.toNat = n * 256 + c.toNat := by
  have low : c.toNat < 2 ^ 8 := c.toNat_lt
  rw [Nat.shiftLeft_eq, Nat.mul_comm, ← Nat.two_pow_add_eq_or_of_lt low, Nat.mul_comm]

theorem collect16_toNat (dest : UInt16) (c : UInt8) :
    (collect16 dest c).toNat = (dest.toNat * 256 + c.toNat) % 65536 := by
  have wide : dest.toNat < 65536 := dest.toNat_lt
  unfold collect16
  simp only [UInt32.toNat_toUInt16, UInt32.toNat_or, UInt32.toNat_shiftLeft, UInt16.toNat_toUInt32,
    UInt8.toNat_toUInt32]
  have cut : dest.toNat <<< 8 % 2 ^ 32 = dest.toNat <<< 8 := by
    rw [Nat.shiftLeft_eq]
    omega
  change (dest.toNat <<< 8 % 2 ^ 32 ||| c.toNat) % 65536 = _
  rw [cut, shifted_or]

theorem toNat_writenum16 (num : UInt16) :
    (writenum16 num).map UInt8.toNat = [num.toNat / 256, num.toNat % 256] := by
  have wide : num.toNat < 65536 := num.toNat_lt
  have high : num.toNat >>> 8 = num.toNat / 256 := Nat.shiftRight_eq_div_pow _ 8
  have mask : ∀ n : Nat, n &&& 255 = n % 256 := fun n => Nat.and_two_pow_sub_one_eq_mod n 8
  simp only [writenum16, List.map_cons, List.map_nil, UInt16.toNat_toUInt8, UInt16.toNat_and,
    UInt16.toNat_shiftRight, UInt16.toNat_ofNat, Nat.reducePow, Nat.reduceMod, mask, high]
  congr 1
  · omega
  · congr 1
    omega

theorem collect16_writenum (dest num : UInt16) :
    (writenum16 num).foldl collect16 dest = num := by
  have bytes := toNat_writenum16 num
  have wide : num.toNat < 65536 := num.toNat_lt
  simp only [writenum16, List.map_cons, List.map_nil, List.cons.injEq, and_true] at bytes
  apply UInt16.toNat_inj.mp
  simp only [writenum16, List.foldl_cons, List.foldl_nil, collect16_toNat, bytes]
  omega

theorem writenum_collect16 (dest : UInt16) (a b : UInt8) :
    writenum16 (collect16 (collect16 dest a) b) = [a, b] := by
  have bytes := toNat_writenum16 (collect16 (collect16 dest a) b)
  have high : a.toNat < 256 := a.toNat_lt
  have low : b.toNat < 256 := b.toNat_lt
  simp only [writenum16, List.map_cons, List.map_nil, List.cons.injEq, and_true, collect16_toNat]
    at bytes ⊢
  obtain ⟨first, second⟩ := bytes
  constructor
  · apply UInt8.toNat_inj.mp
    rw [first]
    omega
  · apply UInt8.toNat_inj.mp
    rw [second]
    omega

theorem collect8_eq (dest c : UInt8) : collect8 dest c = c := by
  have low : c.toNat < 256 := c.toNat_lt
  have cut : dest.toNat <<< 8 % 2 ^ 32 = dest.toNat <<< 8 := by
    have := dest.toNat_lt
    rw [Nat.shiftLeft_eq]
    omega
  apply UInt8.toNat_inj.mp
  unfold collect8
  simp only [UInt32.toNat_toUInt8, UInt32.toNat_or, UInt32.toNat_shiftLeft, UInt8.toNat_toUInt32]
  change (dest.toNat <<< 8 % 2 ^ 32 ||| c.toNat) % 256 = c.toNat
  rw [cut, shifted_or]
  omega

end TinyFrame
