import CommonLib.TinyFrame.Listeners

/- Composing and sending. `written` collects the buffers passed to `TF_WriteImpl`, in order. -/
namespace TinyFrame

def idMask : UInt16 := ((1 : UInt16) <<< 15) - 1
def idPeerbit : UInt16 := (1 : UInt16) <<< 15

structure Port where
  tf : TinyFrame
  written : List (List UInt8)

def claimTx (tf : TinyFrame) : TinyFrame × Bool :=
  if tf.softLock then (tf, false) else ({ tf with softLock := true }, true)

def releaseTx (tf : TinyFrame) : TinyFrame := { tf with softLock := false }

def putBytes (buf : Nat → UInt8) (pos : Nat) : List UInt8 → Nat → UInt8
  | [] => buf
  | b :: bytes => putBytes (Function.update buf pos b) (pos + 1) bytes

/-- The ID of the next frame, as `TF_ComposeHead` resolves it. -/
def genId (tf : TinyFrame) (msg : Msg) : TinyFrame × UInt16 :=
  if msg.isResponse then (tf, msg.frameId)
  else
    let id := tf.nextId &&& idMask
    ({ tf with nextId := tf.nextId + 1 }, if tf.peerBit then id ||| idPeerbit else id)

def headBytes (id len type : UInt16) : List UInt8 :=
  let head := sofByte :: (writenum16 id ++ writenum16 len ++ writenum16 type)
  head ++ [cksumOf head]

def composeHead (tf : TinyFrame) (msg : Msg) : TinyFrame × Msg × Nat :=
  let (tf, id) := tf.genId msg
  let head := headBytes id msg.len msg.type
  ({ tf with sendbuf := putBytes tf.sendbuf 0 head }, { msg with frameId := id }, head.length)

def composeBody (tf : TinyFrame) (data : Nat → UInt8) (dataLen : Nat) : TinyFrame × Nat :=
  let bytes := (List.range dataLen).map data
  ({ tf with
      sendbuf := putBytes tf.sendbuf tf.txPos bytes
      txCksum := bytes.foldl cksumAdd tf.txCksum }, bytes.length)

def composeTail (tf : TinyFrame) : TinyFrame × Nat :=
  let cksum := cksumEnd tf.txCksum
  ({ tf with sendbuf := putBytes tf.sendbuf tf.txPos [cksum], txCksum := cksum }, 1)

def writeImpl (p : Port) : Port :=
  { p with written := p.written ++ [(List.range p.tf.txPos).map p.tf.sendbuf] }

/-- `TF_SendFrame_Begin`. A listener that cannot be added ends it with the lock taken. -/
def sendFrameBegin (tf : TinyFrame) (msg : Msg) (listener : Option Nat) (timeout : UInt16) :
    TinyFrame × Msg × Bool :=
  match tf.claimTx with
  | (tf, false) => (tf, msg, false)
  | (tf, true) =>
    let (tf, msg, pos) := tf.composeHead msg
    let tf := { tf with txPos := pos, txLen := msg.len.toNat }
    match listener with
    | none => ({ tf with txCksum := cksumStart }, msg, true)
    | some cb =>
      match tf.addIdListener msg (some cb) timeout with
      | (tf, false) => (tf, msg, false)
      | (tf, true) => ({ tf with txCksum := cksumStart }, msg, true)

/-- A turn of the loop of `TF_SendFrame_Chunk`: `chunk` bytes, and a flush if the buffer is full. -/
def chunkTurn (p : Port) (buff : Nat → UInt8) (chunk : Nat) : Port :=
  let (tf, n) := p.tf.composeBody buff (chunk % 2 ^ 16)
  let tf := { tf with txPos := tf.txPos + n }
  let p : Port := { p with tf := tf }
  if tf.txPos = sendbufLen then
    let p := writeImpl p
    { p with tf := { p.tf with txPos := 0 } }
  else p

def chunkLoop (buff : Nat → UInt8) : Nat → Port → Nat → Nat → Option Port
  | _, p, 0, _ => some p
  | 0, _, _, _ => none
  | fuel + 1, p, remain, sent =>
    let chunk := min (sendbufLen - p.tf.txPos) remain
    chunkLoop buff fuel (chunkTurn p (fun i => buff (sent + i)) chunk) (remain - chunk)
      (sent + chunk)

/-- `TF_SendFrame_Chunk`: a turn writes at least one byte, so `length` turns are enough. -/
def sendFrameChunk (p : Port) (buff : Nat → UInt8) (length : Nat) : Option Port :=
  chunkLoop buff length p length 0

def sendFrameEnd (p : Port) : Port :=
  let p := if p.tf.txLen > 0 then
      let p := if sendbufLen - p.tf.txPos < 1 then
          let p := writeImpl p
          { p with tf := { p.tf with txPos := 0 } }
        else p
      let (tf, n) := p.tf.composeTail
      { p with tf := { tf with txPos := tf.txPos + n } }
    else p
  let p := writeImpl p
  { p with tf := p.tf.releaseTx }

/-- What a send call leaves: the port, the caller's message, the answer. -/
structure Sent where
  port : Port
  msg : Msg
  result : Bool

def sendFrame (p : Port) (msg : Msg) (listener : Option Nat) (timeout : UInt16) : Option Sent :=
  match p.tf.sendFrameBegin msg listener timeout with
  | (tf, msg, false) => some ⟨{ p with tf := tf }, msg, false⟩
  | (tf, msg, true) =>
    let p : Port := { p with tf := tf }
    match msg.data with
    | none =>
      -- A null pointer with a length opens a multi-part frame.
      if msg.len = 0 then some ⟨sendFrameEnd p, msg, true⟩ else some ⟨p, msg, true⟩
    | some data =>
      match sendFrameChunk p data msg.len.toNat with
      | none => none
      | some p => some ⟨sendFrameEnd p, msg, true⟩

/-! ### The interface -/

def clearMsg : Msg := ⟨0, false, 0, none, 0, none, none⟩

def send (p : Port) (msg : Msg) : Option Sent := sendFrame p msg none 0

def sendSimple (p : Port) (type : UInt16) (data : Option (Nat → UInt8)) (len : UInt16) :
    Option Sent :=
  send p { clearMsg with type := type, data := data, len := len }

def querySimple (p : Port) (type : UInt16) (data : Option (Nat → UInt8)) (len : UInt16)
    (listener : Option Nat) (timeout : UInt16) : Option Sent :=
  sendFrame p { clearMsg with type := type, data := data, len := len } listener timeout

def query (p : Port) (msg : Msg) (listener : Option Nat) (timeout : UInt16) : Option Sent :=
  sendFrame p msg listener timeout

def respond (p : Port) (msg : Msg) : Option Sent := send p { msg with isResponse := true }

def sendMultipart (p : Port) (msg : Msg) : Option Sent := send p { msg with data := none }

def sendSimpleMultipart (p : Port) (type len : UInt16) : Option Sent := sendSimple p type none len

def querySimpleMultipart (p : Port) (type len : UInt16) (listener : Option Nat) (timeout : UInt16) :
    Option Sent := querySimple p type none len listener timeout

def queryMultipart (p : Port) (msg : Msg) (listener : Option Nat) (timeout : UInt16) :
    Option Sent :=
  query p { msg with data := none } listener timeout

def respondMultipart (p : Port) (msg : Msg) : Option Sent := respond p { msg with data := none }

def multipartPayload (p : Port) (buff : Nat → UInt8) (length : Nat) : Option Port :=
  sendFrameChunk p buff length

def multipartClose (p : Port) : Port := sendFrameEnd p

end TinyFrame
