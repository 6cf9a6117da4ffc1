import BitcoinNode.ArrivalTiming

/-! Framing. What is written message after message is read back message after message: the header
announces the length of the payload, and the name is padded with zeros on one side and cut at the first
one on the other. -/
namespace BitcoinNode

def checksumEmptyPayload : U8Array 4 := ⟨[0x5d, 0xf6, 0xe0, 0xe2], rfl⟩

section Framing

variable [Crates]

def HeaderMessage.new (commandName : String) : (payload : Option (List UInt8)) → HeaderMessage
  | none => ⟨BitcoinNode.startString, commandName, 0, checksumEmptyPayload⟩
  | some payload => ⟨BitcoinNode.startString, commandName, UInt32.ofNat payload.length, getChecksum payload⟩

/-- A header and its payload, as the node writes messages. -/
def framed (message : String × List UInt8) : Checked (List UInt8) := do
  let header ← (HeaderMessage.new message.1 (some message.2)).toLeBytes
  return header ++ message.2

end Framing

/-- One message: its header, its payload, and its name without the padding. -/
def readMessage : Proc Socket NodeCustomErrors (String × List UInt8) := do
  let header ← readHeader
  let payload ← readPayload header.payloadSize.toNat
  return (getHeaderCommandNameAsStr header.commandName, payload)

/-- One message after the other, until one cannot be read. -/
def readMessages : (fuel : Nat) → Proc Socket NodeCustomErrors (List (String × List UInt8))
  | 0 => return []
  | fuel + 1 => do
    match ← Proc.attempt readMessage with
    | .ok message => return message :: (← readMessages fuel)
    | .error _ => return []

theorem byteArray_toList (bytes : ByteArray) : bytes.toList = bytes.data.toList := by
  have loop (i : Nat) (read : List UInt8) : ByteArray.toList.loop bytes i read =
      read.reverse ++ bytes.data.toList.drop i := by
    induction i, read using ByteArray.toList.loop.induct bytes with
    | case1 i read more ih =>
      have bound : i < bytes.data.toList.length := more
      have here : bytes.get! i = bytes.data.toList[i] := by
        simp only [ByteArray.get!, Array.getElem_toList]
        exact getElem!_pos bytes.data i more
      rw [ByteArray.toList.loop, if_pos more, ih, here, List.drop_eq_getElem_cons bound]
      simp
    | case2 i read done =>
      have nothing : bytes.data.toList.drop i = [] := List.drop_of_length_le (Nat.not_lt.mp done)
      rw [ByteArray.toList.loop, if_neg done, nothing, List.append_nil]
  exact loop 0 []

theorem from_utf8_bytes {bytes : List UInt8} {text : String} (read : fromUtf8 bytes = .ok text) :
    text.toUTF8.toList = bytes := by
  rw [fromUtf8, String.fromUTF8?] at read
  split_ifs at read with valid
  · obtain rfl := Except.ok.inj read
    rw [byteArray_toList]
    rfl
  · cases read

theorem from_utf8_padded (command : String) (padding : Nat) :
    fromUtf8 (command.toUTF8.toList ++ List.replicate padding 0) =
      .ok (command ++ String.ofList (List.replicate padding '\x00')) := by
  have zeros (n : Nat) : (List.replicate n '\x00').utf8Encode = (List.replicate n (0 : UInt8)).toByteArray := by
    induction n with
    | zero => simp
    | succ n ih =>
      rw [List.replicate_succ, List.utf8Encode_cons, ih, List.utf8Encode_singleton, List.replicate_succ,
        ← List.singleton_append (x := (0 : UInt8)), List.toByteArray_append]
      congr 1
  have bytes : (⟨(command.toUTF8.toList ++ List.replicate padding 0).toArray⟩ : ByteArray) =
      (command ++ String.ofList (List.replicate padding '\x00')).toByteArray := by
    rw [String.toByteArray_append, String.toByteArray_ofList, zeros, byteArray_toList, String.toUTF8_eq_toByteArray]
    apply ByteArray.ext
    apply Array.ext'
    simp
  rw [fromUtf8, bytes, String.fromUTF8?, dif_pos (String.isValidUTF8 _)]
  rfl

theorem from_utf8_text (text : String) : fromUtf8 text.toUTF8.toList = .ok text := by
  simpa using from_utf8_padded text 0

theorem name_padded {command : String} (text : '\x00' ∉ command.toList) (padding : Nat) :
    getHeaderCommandNameAsStr (command ++ String.ofList (List.replicate padding '\x00')) = command := by
  have cut : (command.toList ++ List.replicate padding '\x00').takeWhile (· ≠ '\x00') = command.toList := by
    have apart : ∀ c ∈ command.toList, decide (c ≠ '\x00') = true := by
      intro c member
      refine decide_eq_true fun same => text ?_
      rwa [same] at member
    rw [List.takeWhile_append_of_pos apart]
    cases padding <;> simp [List.replicate_succ]
  rw [getHeaderCommandNameAsStr, String.toList_append, String.toList_ofList, cut, String.ofList_toList]

/-- A name that fits in its field and a payload whose length can be announced. -/
structure Sendable (message : String × List UInt8) : Prop where
  name : message.1.toUTF8.toList.length ≤ 12
  text : '\x00' ∉ message.1.toList
  sized : message.2.length < 2 ^ 32

theorem read_message_end :
    readMessage.run [[]] = (Outcome.fail (.ReadNodeError IoError.UnexpectedEof.fmt), []) := by
  have short := Socket.read_exact_short [] (show ¬24 ≤ ([] : List UInt8).length by decide)
  rw [if_pos rfl] at short
  have header : readHeader.run [[]] = (Outcome.fail (.ReadNodeError IoError.UnexpectedEof.fmt), []) := by
    rw [readHeader, Proc.run_bind_ok _ (Proc.run_attempt_err short)]
    rfl
  rw [readMessage, Proc.run_bind_error _ header]
  rfl

section Stream

variable [Crates]

theorem framed_shape {message : String × List UInt8} (fits : message.1.toUTF8.toList.length ≤ 12) :
    ∃ header : U8Array 24, framed message = .ok (header.val ++ message.2) := by
  obtain ⟨name, padded⟩ := command_name_to_bytes_of_fits fits
  refine ⟨⟨startString.val ++ name.val ++ u32ToLeBytes (UInt32.ofNat message.2.length) ++
    (getChecksum message.2).val, by simp⟩, ?_⟩
  rw [framed, HeaderMessage.new, HeaderMessage.toLeBytes, padded]
  rfl

theorem framed_eq {message : String × List UInt8} (sendable : Sendable message) :
    ∃ sent : PeerMessage, sent.payload = message.2 ∧
      fromUtf8 sent.command.val = .ok (message.1 ++
        String.ofList (List.replicate (12 - message.1.toUTF8.toList.length) '\x00')) ∧
      framed message = .ok (sent.header.val ++ message.2) := by
  refine ⟨⟨startString, ⟨_, ?_⟩, getChecksum message.2, message.2, sendable.sized⟩, rfl,
    from_utf8_padded _ _, ?_⟩
  · have fits := sendable.name
    simp only [List.length_append, List.length_replicate]
    omega
  · rw [framed, HeaderMessage.new, HeaderMessage.toLeBytes, commandNameToBytes, dif_pos sendable.name]
    rfl

theorem read_message_framed {message : String × List UInt8} (sendable : Sendable message) {bytes : List UInt8}
    (written : framed message = .ok bytes) (back : List UInt8) (later : Socket) :
    readMessage.run ((bytes ++ back) :: later) = (.ok message, back :: later) := by
  obtain ⟨sent, payload, name, written'⟩ := framed_eq sendable
  obtain rfl := Except.ok.inj (written.symm.trans written')
  have header := read_header_ok (Socket.read_exact_front sent.header (message.2 ++ back) later)
  have body := read_payload_from_eq (Socket.read_exact_front ⟨message.2, rfl⟩ back later)
  have size : (UInt32.ofNat message.2.length).toNat = message.2.length :=
    UInt32.toNat_ofNat_of_lt' sendable.sized
  rw [sent.from_le_bytes_header, name, payload] at header
  rw [readMessage, List.append_assoc, Proc.run_bind_ok _ header]
  simp only [size]
  rw [Proc.run_bind_ok _ body]
  simp only [name_padded sendable.text]
  rfl

/-- Messages that are written one after the other are read back one after the other, and nothing is
left over. -/
theorem read_messages_framed {messages : List (String × List UInt8)}
    (sendable : ∀ message ∈ messages, Sendable message) :
    ∃ written, messages.mapM framed = .ok written ∧ ∀ fuel ≥ messages.length,
      ∃ node, (readMessages fuel).run [written.flatten] = (.ok messages, node) ∧ node.flatten = [] := by
  induction messages with
  | nil =>
    refine ⟨[], rfl, fun fuel _ => ?_⟩
    cases fuel with
    | zero => exact ⟨[[]], rfl, rfl⟩
    | succ fuel =>
      refine ⟨[], ?_, rfl⟩
      rw [List.flatten_nil, readMessages, Proc.run_bind_ok _ (Proc.run_attempt_err read_message_end)]
      rfl
  | cons message rest ih =>
    obtain ⟨first, others⟩ := List.forall_mem_cons.mp sendable
    obtain ⟨written, mapped, later⟩ := ih others
    obtain ⟨sent, _, _, bytes⟩ := framed_eq first
    refine ⟨_ :: written, by rw [List.mapM_cons, bytes, mapped]; rfl, fun fuel enough => ?_⟩
    cases fuel with
    | zero => simp at enough
    | succ fuel =>
      obtain ⟨node, read, empty⟩ := later fuel (Nat.le_of_succ_le_succ enough)
      refine ⟨node, ?_, empty⟩
      have here := read_message_framed first bytes written.flatten []
      rw [List.flatten_cons, readMessages, Proc.run_bind_ok _ (Proc.run_attempt_ok here)]
      simp only [Proc.run_bind_ok _ read]
      rfl

end Stream

/-- A ping with a nonce and a message without a name and without a payload. -/
theorem read_messages_framed_two :
    let _ := Crates.standard
    let messages := [("ping", [1, 2, 3, 4, 5, 6, 7, 8]), ("", [])]
    ∃ written, messages.mapM framed = .ok written ∧ ∀ fuel ≥ messages.length,
      ∃ node, (readMessages fuel).run [written.flatten] = (.ok messages, node) ∧ node.flatten = [] := by
  intro _ messages
  refine read_messages_framed fun message member => ?_
  rcases List.mem_pair.mp member with rfl | rfl
  · exact ⟨by decide +kernel, by decide, by decide⟩
  · exact ⟨by decide +kernel, by decide, by decide⟩

end BitcoinNode
