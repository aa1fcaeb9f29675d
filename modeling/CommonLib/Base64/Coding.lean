/- The base64 coding of strings, with the alphabet of mail and that of URLs. A string is the list
   of its bytes. `none` is a read outside of the alphabet's string in an encoder, and `NGX_ERROR`
   of a decoder. -/
namespace Base64

abbrev Byte := BitVec 8

def text (s : String) : List Byte := s.toList.map fun c => BitVec.ofNat 8 c.toNat

def pad : Byte := 61

def invalid : Byte := 77

/-! ### Encoding -/

section Encode
variable (basis : List Byte) (padding : Bool)

def encodeInternal : List Byte → Option (List Byte)
  | a :: b :: c :: rest => do
    let first ← basis[(a >>> 2 &&& 0x3f).toNat]?
    let second ← basis[((a &&& 3) <<< 4 ||| b >>> 4).toNat]?
    let third ← basis[((b &&& 0x0f) <<< 2 ||| c >>> 6).toNat]?
    let fourth ← basis[(c &&& 0x3f).toNat]?
    return first :: second :: third :: fourth :: (← encodeInternal rest)
  | [a, b] => do
    let first ← basis[(a >>> 2 &&& 0x3f).toNat]?
    let second ← basis[((a &&& 3) <<< 4 ||| b >>> 4).toNat]?
    let third ← basis[((b &&& 0x0f) <<< 2).toNat]?
    return [first, second, third] ++ if padding then [pad] else []
  | [a] => do
    let first ← basis[(a >>> 2 &&& 0x3f).toNat]?
    let second ← basis[((a &&& 3) <<< 4).toNat]?
    return [first, second] ++ if padding then [pad, pad] else []
  | [] => some []

end Encode

/-- The string ends with a NUL. -/
def basis64 : List Byte :=
  text "ABCDEFGHIJKLMNOPQRSTUVWXYZabcdefghijklmnopqrstuvwxyz0123456789+/" ++ [0]

def basis64url : List Byte :=
  text "ABCDEFGHIJKLMNOPQRSTUVWXYZabcdefghijklmnopqrstuvwxyz0123456789-_" ++ [0]

def encodeBase64 : List Byte → Option (List Byte) := encodeInternal basis64 true

def encodeBase64url : List Byte → Option (List Byte) := encodeInternal basis64url false

/-! ### Decoding -/

section Decode
variable (basis : Vector Byte 256)

def value (c : Byte) : Byte := basis.get c.toFin

def scan : List Byte → Option (List Byte)
  | [] => some []
  | c :: rest =>
    if c = pad then some []
    else if value basis c = invalid then none
    else do return c :: (← scan rest)

def decodeLoop : List Byte → List Byte
  | a :: b :: c :: d :: rest =>
    (value basis a <<< 2 ||| value basis b >>> 4) ::
      (value basis b <<< 4 ||| value basis c >>> 2) ::
      (value basis c <<< 6 ||| value basis d) :: decodeLoop rest
  | [a, b, c] =>
    [value basis a <<< 2 ||| value basis b >>> 4, value basis b <<< 4 ||| value basis c >>> 2]
  | [a, b] => [value basis a <<< 2 ||| value basis b >>> 4]
  | _ => []

def decodeInternal (src : List Byte) : Option (List Byte) := do
  let body ← scan basis src
  if body.length % 4 = 1 then none else return decodeLoop basis body

end Decode

def none16 : List Byte := List.replicate 16 77

def digits : List Byte := [52, 53, 54, 55, 56, 57, 58, 59, 60, 61, 77, 77, 77, 77, 77, 77]

def upper : List Byte := [77, 0, 1, 2, 3, 4, 5, 6, 7, 8, 9, 10, 11, 12, 13, 14]

def lower : List Byte := [77, 26, 27, 28, 29, 30, 31, 32, 33, 34, 35, 36, 37, 38, 39, 40]

def lowerEnd : List Byte := [41, 42, 43, 44, 45, 46, 47, 48, 49, 50, 51, 77, 77, 77, 77, 77]

def behindAscii : List Byte := List.replicate 128 77

def values64 : Vector Byte 256 :=
  ⟨(none16 ++ none16 ++ [77, 77, 77, 77, 77, 77, 77, 77, 77, 77, 77, 62, 77, 77, 77, 63] ++
    digits ++ upper ++ [15, 16, 17, 18, 19, 20, 21, 22, 23, 24, 25, 77, 77, 77, 77, 77] ++
    lower ++ lowerEnd ++ behindAscii).toArray, by decide +kernel⟩

def values64url : Vector Byte 256 :=
  ⟨(none16 ++ none16 ++ [77, 77, 77, 77, 77, 77, 77, 77, 77, 77, 77, 77, 77, 62, 77, 77] ++
    digits ++ upper ++ [15, 16, 17, 18, 19, 20, 21, 22, 23, 24, 25, 77, 77, 77, 77, 63] ++
    lower ++ lowerEnd ++ behindAscii).toArray, by decide +kernel⟩

def decodeBase64 : List Byte → Option (List Byte) := decodeInternal values64

def decodeBase64url : List Byte → Option (List Byte) := decodeInternal values64url

def encodedLength (len : Nat) : Nat := (len + 2) / 3 * 4

def decodedLength (len : Nat) : Nat := (len + 3) / 4 * 3

end Base64
