import CommonLib.TinyFrame.Format

/- `TF_AcceptChar`: the parser of the receiving side, one byte at a time. -/
namespace TinyFrame

def resetParser (tf : TinyFrame) : TinyFrame := { tf with state := .SOF }

def parsBeginFrame (tf : TinyFrame) : TinyFrame :=
  { tf with
    cksum := cksumAdd cksumStart sofByte
    discardData := false
    state := .ID
    rxi := 0 }

def clearTimeout (tf : TinyFrame) : TinyFrame :=
  let tf := if tf.parserTimeoutTicks ≥ parserTimeout then
      if tf.state ≠ .SOF then tf.resetParser else tf
    else tf
  { tf with parserTimeoutTicks := 0 }

def parseChar (tf : TinyFrame) (c : UInt8) : TinyFrame × Int :=
  match tf.state with
  | .SOF => if c = sofByte then (tf.parsBeginFrame, 1) else (tf, -1)
  | .ID =>
    let tf := { tf with cksum := cksumAdd tf.cksum c, id := collect16 tf.id c, rxi := tf.rxi + 1 }
    if tf.rxi = 2 then ({ tf with state := .LEN, rxi := 0 }, 2) else (tf, -2)
  | .LEN =>
    let tf := { tf with cksum := cksumAdd tf.cksum c, len := collect16 tf.len c, rxi := tf.rxi + 1 }
    if tf.rxi = 2 then ({ tf with state := .TYPE, rxi := 0 }, 3) else (tf, -3)
  | .TYPE =>
    let tf := { tf with cksum := cksumAdd tf.cksum c, type := collect16 tf.type c, rxi := tf.rxi + 1 }
    if tf.rxi = 2 then
      let tf := { tf with state := .HEAD_CKSUM, rxi := 0, refCksum := 0 }
      -- A message without a body ends here, before its header checksum.
      if tf.len = 0 then (tf.resetParser, 0) else (tf, 4)
    else (tf, -4)
  | .HEAD_CKSUM =>
    let tf := { tf with refCksum := collect8 tf.refCksum c, rxi := tf.rxi + 1 }
    if tf.rxi = (1 : UInt16) then
      let tf := { tf with cksum := cksumEnd tf.cksum }
      let (tf, result) : TinyFrame × Int :=
        if tf.cksum ≠ tf.refCksum then (tf.resetParser, -8) else (tf, 5)
      -- Both outcomes of the check go on to the payload.
      let tf := { tf with state := .DATA, rxi := 0, cksum := cksumStart }
      if tf.len > maxPayloadRx then ({ tf with discardData := true }, -9) else (tf, result)
    else (tf, -5)
  | .DATA =>
    let (tf, result) : TinyFrame × Int :=
      if tf.discardData then ({ tf with rxi := tf.rxi + 1 }, -6)
      else ({ tf with
                cksum := cksumAdd tf.cksum c
                data := Function.update tf.data tf.rxi.toNat c
                rxi := tf.rxi + 1 }, 6)
    if tf.rxi = tf.len then ({ tf with state := .DATA_CKSUM, rxi := 0, refCksum := 0 }, result)
    else (tf, result)
  | .DATA_CKSUM =>
    let tf := { tf with refCksum := collect8 tf.refCksum c, rxi := tf.rxi + 1 }
    if tf.rxi = (1 : UInt16) then
      let tf := { tf with cksum := cksumEnd tf.cksum }
      -- A discarded frame keeps the initial result.
      let result : Int :=
        if !tf.discardData then (if tf.cksum = tf.refCksum then 0 else -10) else 0
      (tf.resetParser, result)
    else (tf, -7)

def acceptChar (tf : TinyFrame) (c : UInt8) : TinyFrame × Int := tf.clearTimeout.parseChar c

theorem parseChar_frame (tf : TinyFrame) (c : UInt8) :
    ∃ state id len data rxi cksum refCksum type discard, (tf.parseChar c).1 =
      { tf with
        state := state, id := id, len := len, data := data, rxi := rxi, cksum := cksum
        refCksum := refCksum, type := type, discardData := discard } := by
  unfold parseChar
  cases tf.state with
  | SOF =>
    simp only
    split
    · exact ⟨_, _, _, _, _, _, _, _, _, rfl⟩
    · exact ⟨_, _, _, _, _, _, _, _, _, rfl⟩
  | ID =>
    simp only
    split
    · exact ⟨_, _, _, _, _, _, _, _, _, rfl⟩
    · exact ⟨_, _, _, _, _, _, _, _, _, rfl⟩
  | LEN =>
    simp only
    split
    · exact ⟨_, _, _, _, _, _, _, _, _, rfl⟩
    · exact ⟨_, _, _, _, _, _, _, _, _, rfl⟩
  | TYPE =>
    simp only
    split
    · split
      · exact ⟨_, _, _, _, _, _, _, _, _, rfl⟩
      · exact ⟨_, _, _, _, _, _, _, _, _, rfl⟩
    · exact ⟨_, _, _, _, _, _, _, _, _, rfl⟩
  | HEAD_CKSUM =>
    simp only
    split
    · split
      · split
        · exact ⟨_, _, _, _, _, _, _, _, _, rfl⟩
        · exact ⟨_, _, _, _, _, _, _, _, _, rfl⟩
      · split
        · exact ⟨_, _, _, _, _, _, _, _, _, rfl⟩
        · exact ⟨_, _, _, _, _, _, _, _, _, rfl⟩
    · exact ⟨_, _, _, _, _, _, _, _, _, rfl⟩
  | DATA =>
    simp only
    split
    · split
      · exact ⟨_, _, _, _, _, _, _, _, _, rfl⟩
      · exact ⟨_, _, _, _, _, _, _, _, _, rfl⟩
    · split
      · exact ⟨_, _, _, _, _, _, _, _, _, rfl⟩
      · exact ⟨_, _, _, _, _, _, _, _, _, rfl⟩
  | DATA_CKSUM =>
    simp only
    split
    · exact ⟨_, _, _, _, _, _, _, _, _, rfl⟩
    · exact ⟨_, _, _, _, _, _, _, _, _, rfl⟩

end TinyFrame
