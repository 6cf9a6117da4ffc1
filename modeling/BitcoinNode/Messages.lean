import BitcoinNode.BlockCodec

/-! The messages the handlers read and write. -/
namespace BitcoinNode

open Decoder

def startString : U8Array 4 := ⟨[0x0b, 0x11, 0x09, 0x07], rfl⟩

structure HeaderMessage where
  startString : U8Array 4
  commandName : String
  payloadSize : UInt32
  checksum : U8Array 4

/-- A command of more than twelve bytes panics. -/
def commandNameToBytes (command : String) : Checked (U8Array 12) :=
  let commandBytes := command.toUTF8.toList
  if fits : commandBytes.length ≤ 12 then
    .ok ⟨commandBytes ++ List.replicate (12 - commandBytes.length) 0, by simp; omega⟩
  else Outcome.panic

theorem command_name_to_bytes_of_fits {command : String} (fits : command.toUTF8.toList.length ≤ 12) :
    ∃ name, commandNameToBytes command = .ok name := ⟨_, dif_pos fits⟩

def getChecksum [Crates] (payload : List UInt8) : U8Array 4 :=
  ⟨(sha256d payload).val.take 4, by simp⟩

def HeaderMessage.toLeBytes (h : HeaderMessage) : Checked (List UInt8) := do
  let commandName ← commandNameToBytes h.commandName
  return h.startString.val ++ commandName.val ++ u32ToLeBytes h.payloadSize ++ h.checksum.val

structure Inventory where
  typeIdentifier : UInt32
  hash : Hash

namespace Inventory

def newBlock (hash : Hash) : Inventory := ⟨2, hash⟩

def toLeBytes (i : Inventory) : List UInt8 := u32ToLeBytes i.typeIdentifier ++ i.hash.val

end Inventory

def getDataPayloadBytes (inventories : List Inventory) : List UInt8 :=
  (CompactSizeUint.new inventories.length).marshalling ++ inventories.flatMap Inventory.toLeBytes

structure GetDataMessage where
  header : HeaderMessage
  payload : List UInt8

namespace GetDataMessage

def new [Crates] (inventories : List Inventory) : GetDataMessage :=
  let payload := getDataPayloadBytes inventories
  ⟨⟨startString, "getdata", UInt32.ofNat payload.length, getChecksum payload⟩, payload⟩

def marshalling (m : GetDataMessage) : Checked (List UInt8) := do
  let header ← m.header.toLeBytes
  return header ++ m.payload

theorem marshalling_new [Crates] (inventories : List Inventory) :
    ∃ bytes, (new inventories).marshalling = .ok bytes := by
  obtain ⟨name, padded⟩ := @command_name_to_bytes_of_fits "getdata" (by decide +kernel)
  rw [marshalling, HeaderMessage.toLeBytes, new, padded]
  exact ⟨_, rfl⟩

end GetDataMessage

/-- Every header is followed by one byte, a transaction count that is not looked at. -/
def HeadersMessage.unmarshalling : Decoder String (List BlockHeader) := do
  let count ← CompactSizeUint.unmarshalling
  let amount ← lift count.decodedValue
  replicate amount do
    let offset ← position
    let headersSize ← length
    if headersSize < offset + 80 then fail "Out of bounds"
    else
      let header ← BlockHeader.unmarshalling
      advance 1
      return header

def headersMessagePayload (headers : List BlockHeader) : List UInt8 :=
  (CompactSizeUint.new headers.length).marshalling ++ headers.flatMap fun header => header.marshalling ++ [0]

theorem headers_message_payload_length (headers : List BlockHeader) : (headersMessagePayload headers).length =
    (CompactSizeUint.new headers.length).marshalling.length + 81 * headers.length := by
  rw [headersMessagePayload, List.length_append, List.length_flatMap]
  simp [Nat.mul_comm]

namespace HeadersMessage

/-- One turn of the loop: the guard, a header, and the byte after it. -/
def record : Decoder String BlockHeader := do
  let offset ← position
  let headersSize ← length
  if headersSize < offset + 80 then fail "Out of bounds"
  else
    let header ← BlockHeader.unmarshalling
    advance 1
    return header

theorem record_reads (header : BlockHeader) : Reads record (header.marshalling ++ [0]) header := by
  intro front back
  have read := BlockHeader.unmarshalling_reads header front ([0] ++ back)
  have room : ¬(front ++ (header.marshalling ++ [0]) ++ back).length < front.length + 80 := by
    simp only [List.length_append, BlockHeader.marshalling_length]
    omega
  rw [record, bind_ok _ (show position _ _ = .ok (front.length, front.length) from rfl),
    bind_ok _ (show length _ _ = .ok ((front ++ (header.marshalling ++ [0]) ++ back).length, front.length) from rfl),
    if_neg room]
  simp only [List.append_assoc] at read ⊢
  rw [bind_ok _ read, List.length_append, ← Nat.add_assoc]
  rfl

theorem unmarshalling_payload {headers : List BlockHeader} (fits : headers.length < 2 ^ 64) :
    ∃ stop, unmarshalling (headersMessagePayload headers) 0 = .ok (headers, stop) := by
  have counts := CompactSizeUint.new_counts fits
  have reads : Reads unmarshalling (headersMessagePayload headers) headers :=
    .bind (CompactSizeUint.unmarshalling_reads counts.1)
      (.lift counts.2 (.replicate headers fun header _ => record_reads header))
  exact ⟨_, by simpa using reads [] []⟩

end HeadersMessage

def BlockMessage.unmarshalling (blockMessagePayloadBytes : List UInt8) : Outcome String Block := do
  let (block, _) ← Block.unmarshalling blockMessagePayloadBytes 0
  return block

theorem BlockMessage.unmarshalling_wellFormed {payload : List UInt8} {b : Block}
    (decoded : BlockMessage.unmarshalling payload = .ok b) : b.WellFormed := by
  obtain ⟨⟨block, stop⟩, read, same⟩ := Outcome.bind_eq_ok.mp decoded
  cases same
  exact (Block.unmarshalling_spans _ _ _ _ (Nat.zero_le _) read).2.2.2

theorem BlockMessage.unmarshalling_marshalling {b : Block} (valid : b.WellFormed) :
    BlockMessage.unmarshalling b.marshalling = .ok b := by
  have read := Block.unmarshalling_reads valid [] []
  simp only [List.nil_append, List.append_nil, List.length_nil] at read
  rw [unmarshalling, read]
  rfl

end BitcoinNode
