import BitcoinNode.Blockchain
import BitcoinNode.Messages
import BitcoinNode.Lib.Socket

/-! The loop that receives the messages of a peer and hands them to the handlers. What the node
writes to the peer and the flag that ends the program are left out: writing succeeds, and the flag
stays unset. -/
namespace BitcoinNode

/-- `std::str::from_utf8`; the position that the error names is left out. -/
def fromUtf8 (bytes : List UInt8) : Outcome String String :=
  match String.fromUTF8? ⟨bytes.toArray⟩ with
  | some text => .ok text
  | none => Outcome.fail "invalid utf-8 sequence"

def HeaderMessage.fromLeBytes (bytes : U8Array 24) : Outcome String HeaderMessage := do
  let startString : U8Array 4 := ⟨slice bytes.val 0 4, by simp [slice_length]⟩
  let commandName ← fromUtf8 (slice bytes.val 4 16)
  let payloadSize : U8Array 4 := ⟨slice bytes.val 16 20, by simp [slice_length]⟩
  let checksum : U8Array 4 := ⟨slice bytes.val 20 24, by simp [slice_length]⟩
  return ⟨startString, commandName, u32FromLeBytes payloadSize, checksum⟩

/-- The name is cut at the first zero character. -/
def getHeaderCommandNameAsStr (command : String) : String :=
  String.ofList (command.toList.takeWhile (· ≠ '\x00'))

def readHeader : Proc Socket NodeCustomErrors HeaderMessage := do
  match ← Proc.attempt (Socket.readExact 24) with
  | .ok bufferNum => Proc.lift (Outcome.mapErr .UnmarshallingError (HeaderMessage.fromLeBytes bufferNum))
  | .error .WouldBlock => Proc.lift (Outcome.fail (.OtherError IoError.WouldBlock.fmt))
  | .error err => Proc.lift (Outcome.fail (.ReadNodeError err.fmt))

/-- After a time-out, which leaves the later pieces, the whole payload is read again. -/
def readPayloadFrom (size : Nat) : Socket → Outcome NodeCustomErrors (List UInt8) × Socket
  | [] => match (Socket.readExact size).run [] with
    | (.ok payloadBufferNum, node) => (.ok payloadBufferNum.val, node)
    | (.error _, node) => (Outcome.fail (.ReadNodeError IoError.UnexpectedEof.fmt), node)
  | piece :: later => match (Socket.readExact size).run (piece :: later) with
    | (.ok payloadBufferNum, node) => (.ok payloadBufferNum.val, node)
    | (.error (.err .WouldBlock), _) => readPayloadFrom size later
    | (.error _, node) => (Outcome.fail (.ReadNodeError IoError.UnexpectedEof.fmt), node)

def readPayload (size : Nat) : Proc Socket NodeCustomErrors (List UInt8) := ⟨readPayloadFrom size⟩

def handledCommands : List String := ["headers", "getdata", "block", "inv", "ping", "tx", "getheaders"]

/-- One connection: the bytes to come, and what was handed to the handlers. -/
structure Connection where
  node : Socket
  handed : List (String × List UInt8)

namespace Connection

def read (m : Proc Socket NodeCustomErrors α) : Proc Connection NodeCustomErrors α :=
  Proc.zoom Connection.node (fun node c => { c with node }) m

def hand (commandName : String) (payload : List UInt8) (c : Connection) : Connection :=
  { c with handed := c.handed ++ [(commandName, payload)] }

/-- The loop. What a handler answers may depend on everything that was handed over so far. -/
def receive (handler : List (String × List UInt8) → Outcome NodeCustomErrors Unit) :
    (fuel : Nat) → Proc Connection NodeCustomErrors Unit
  | 0 => return ()
  | fuel + 1 => do
    match ← Proc.attempt (read readHeader) with
    | .error (.OtherError _) => receive handler fuel
    | .error err => Proc.lift (Outcome.fail err)
    | .ok header => do
      let payload ← read (readPayload header.payloadSize.toNat)
      let commandName := getHeaderCommandNameAsStr header.commandName
      if commandName ∈ handledCommands then do
        Proc.modify (hand commandName payload)
        Proc.lift (handler ((← Proc.get).handed))
        receive handler fuel
      else receive handler fuel

/-- A round uses up bytes or a piece. -/
def size (c : Connection) : Nat := c.node.flatten.length + c.node.length

end Connection

/-- What the handlers are handed from what arrives. -/
def handleMessagesFromNode (handler : List (String × List UInt8) → Outcome NodeCustomErrors Unit)
    (node : Socket) : List (String × List UInt8) :=
  let c : Connection := ⟨node, []⟩
  ((Connection.receive handler (c.size + 1)).run c).2.handed

end BitcoinNode
