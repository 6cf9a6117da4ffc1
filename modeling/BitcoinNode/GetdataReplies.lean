import BitcoinNode.MessageFraming
import BitcoinNode.Payments

/-! Replies to getdata messages. The blocks that are asked for are sent one after the other. What is not
found is reported with a whole inv message as payload, so that no report is read back. -/
namespace BitcoinNode

open Decoder

def msgTx : UInt32 := 1
def msgBlock : UInt32 := 2

namespace Inventory

def fromLeBytes (inventoryBytes : U8Array 36) : Inventory :=
  ⟨u32FromLeBytes ⟨slice inventoryBytes.val 0 4, by simp [slice_length]⟩,
    ⟨slice inventoryBytes.val 4 36, by simp [slice_length]⟩⟩

theorem to_le_bytes_from (inventoryBytes : U8Array 36) :
    (fromLeBytes inventoryBytes).toLeBytes = inventoryBytes.val := by
  have whole : slice inventoryBytes.val 0 36 = inventoryBytes.val := by simp [slice]
  rw [fromLeBytes, toLeBytes, u32_to_from, slice_append _ 0 4 36 (by decide) (by decide), whole]

@[simp] theorem to_le_bytes_length (i : Inventory) : i.toLeBytes.length = 36 := by simp [toLeBytes]

theorem from_le_bytes_to (i : Inventory) : fromLeBytes ⟨i.toLeBytes, i.to_le_bytes_length⟩ = i := by
  have typeIdentifier : slice i.toLeBytes 0 4 = u32ToLeBytes i.typeIdentifier := by
    simp [slice, toLeBytes]
  have hash : slice i.toLeBytes 4 36 = i.hash.val := by simp [slice, toLeBytes]
  simp only [fromLeBytes, typeIdentifier, hash, u32_from_to]

end Inventory

/-- `get_data_payload::unmarshalling`, which panics where the inventories end early. -/
def GetDataPayload.unmarshalling : Decoder String (List Inventory) := do
  let count ← CompactSizeUint.unmarshalling
  let amount ← lift count.decodedValue
  replicate amount do
    let inventoryBytes ← array 36
    return Inventory.fromLeBytes inventoryBytes

theorem GetDataPayload.unmarshalling_spans : Spans unmarshalling (fun inventories word =>
    ∃ count : CompactSizeUint, count.Counts inventories.length ∧
      word = count.marshalling ++ inventories.flatMap Inventory.toLeBytes) := by
  have one : Spans (do
      let inventoryBytes ← array 36
      return Inventory.fromLeBytes inventoryBytes : Decoder String Inventory)
      (fun inventory word => word = inventory.toLeBytes ∧ True) := by
    refine .bind (.array 36) fun inventoryBytes word same => .pure ⟨?_, trivial⟩
    rw [Inventory.to_le_bytes_from, same, List.append_nil]
  refine .bind CompactSizeUint.unmarshalling_spans fun count u hu => .bind (.lift _) fun amount v hv => ?_
  obtain ⟨decoded, rfl⟩ := hv
  intro input start inventories stop inside accepted
  obtain ⟨forward, bound, same, length, _⟩ := Spans.replicate amount one input start inventories stop inside accepted
  refine ⟨forward, bound, count, ⟨hu.2, by rw [length]; exact decoded⟩, ?_⟩
  rw [hu.1, same, List.nil_append]

def requested (inventories : List Inventory) : List Inventory :=
  inventories.filter (·.typeIdentifier = msgBlock)

/-- The blocks that are asked for and there, in the order of the request. -/
def present (blocks : HashMap Hash Block) (inventories : List Inventory) : List Block :=
  (requested inventories).filterMap fun inventory => blocks.get inventory.hash

def missing (blocks : HashMap Hash Block) (inventories : List Inventory) : List Inventory :=
  (requested inventories).filter fun inventory => (blocks.get inventory.hash).isNone

theorem missing_block {blocks : HashMap Hash Block} {inventories : List Inventory} :
    ∀ inventory ∈ missing blocks inventories, inventory.typeIdentifier = msgBlock := by
  intro inventory member
  exact of_decide_eq_true (List.mem_filter.mp (List.mem_filter.mp member).1).2

/-- The node is as before, and everything that was sent stays sent. -/
def OnlySends (s s' : PeerState) : Prop := s'.node = s.node ∧ s.tx.sent <+: s'.tx.sent

theorem OnlySends.refl (s : PeerState) : OnlySends s s := ⟨rfl, List.prefix_rfl⟩

theorem OnlySends.trans (s s' s'' : PeerState) (first : OnlySends s s') (second : OnlySends s' s'') :
    OnlySends s s'' := ⟨second.1.trans first.1, first.2.trans second.2⟩

def writeToNode (message : List UInt8) : Proc PeerState NodeCustomErrors Unit :=
  Proc.zoom PeerState.tx (fun tx s => { s with tx }) (NodeSender.send message)

theorem write_to_node_sends (message : List UInt8) : (writeToNode message).Moves OnlySends := by
  intro s
  rw [writeToNode, Proc.run_zoom, NodeSender.send, Proc.run_bind_ok _ (Proc.run_get _)]
  split_ifs
  · exact ⟨rfl, List.prefix_append _ _⟩
  · exact OnlySends.refl s

theorem write_to_node_ok {message : List UInt8} {s s' : PeerState}
    (ran : (writeToNode message).run s = (.ok (), s')) : s'.tx.sent = s.tx.sent ++ [message] := by
  rw [writeToNode, Proc.run_zoom, NodeSender.send, Proc.run_bind_ok _ (Proc.run_get _)] at ran
  split_ifs at ran
  · exact (Prod.mk.inj ran).2 ▸ rfl
  · cases (Prod.mk.inj ran).1

theorem GetDataPayload.unmarshalling_payload {inventories : List Inventory} (fits : inventories.length < 2 ^ 64) :
    unmarshalling (getDataPayloadBytes inventories) 0 =
      .ok (inventories, (getDataPayloadBytes inventories).length) := by
  have counts := CompactSizeUint.new_counts fits
  have reads : Reads unmarshalling (getDataPayloadBytes inventories) inventories :=
    .bind (CompactSizeUint.unmarshalling_reads counts.1) (.lift counts.2 (.replicate inventories
      fun inventory _ => .map (.array ⟨inventory.toLeBytes, inventory.to_le_bytes_length⟩) (by
        rw [Inventory.from_le_bytes_to]
        exact .pure inventory)))
  simpa using reads [] []

section Getdata

variable [WalletCrates]

def getBlockMessage (block : Block) : Checked (List UInt8) := framed ("block", block.marshalling)

def getTxMessage (tx : Transaction) : Checked (List UInt8) := framed ("tx", tx.marshalling)

/-- The payload is not the inventories, but the message that announces them. -/
def getNotfoundMessage (inventories : List Inventory) : Checked (List UInt8) := do
  let payload ← invMershalling inventories
  framed ("notfound", payload)

/-- What the loop collects. -/
structure GetdataReply where
  messageToSend : List UInt8
  notfoundInventories : List Inventory

def handleBlockInventory (blocks : HashMap Hash Block) (inventory : Inventory) (reply : GetdataReply) :
    Checked GetdataReply :=
  match blocks.get inventory.hash with
  | some block => do
    return { reply with messageToSend := reply.messageToSend ++ (← getBlockMessage block) }
  | none => return { reply with notfoundInventories := reply.notfoundInventories ++ [inventory] }

/-- A transaction is sent for every account where it is pending. -/
def handleTxInventory (inventory : Inventory) : Proc PeerState NodeCustomErrors Unit := do
  let s ← Proc.get
  if s.node.accountsPoisoned then Proc.lift (Outcome.fail poisoned)
  else
    Proc.each s.node.accounts fun account =>
      Proc.each account.pendingTransactions fun tx =>
        if tx.hash = inventory.hash then do
          let txMessage ← Proc.lift (getTxMessage tx).widen
          writeToNode txMessage
        else pure ()

def handleInventory (inv : Inventory) (reply : GetdataReply) : Proc PeerState NodeCustomErrors GetdataReply := do
  (if inv.typeIdentifier = msgTx then handleTxInventory inv else pure ())
  let s ← Proc.get
  if inv.typeIdentifier = msgBlock then
    Proc.lift (handleBlockInventory s.node.blockchain.blocks inv reply).widen
  else return reply

def handleInventories : List Inventory → GetdataReply → Proc PeerState NodeCustomErrors GetdataReply
  | [], reply => return reply
  | inv :: inventories, reply => do
    let reply ← handleInventory inv reply
    handleInventories inventories reply

def handleGetdataMessage (payload : List UInt8) : Proc PeerState NodeCustomErrors Unit := do
  let (inventories, _) ← Proc.lift (Outcome.mapErr .UnmarshallingError (GetDataPayload.unmarshalling payload 0))
  let reply ← handleInventories inventories ⟨[], []⟩
  if reply.notfoundInventories = [] then writeToNode reply.messageToSend
  else do
    let notfoundMessage ← Proc.lift (getNotfoundMessage reply.notfoundInventories).widen
    writeToNode (reply.messageToSend ++ notfoundMessage)

theorem handle_tx_inventory_sends (inventory : Inventory) : (handleTxInventory inventory).Moves OnlySends := by
  intro s
  rw [handleTxInventory, Proc.run_bind_ok _ (Proc.run_get s)]
  split_ifs
  · exact OnlySends.refl s
  · refine Proc.Moves.each OnlySends.refl OnlySends.trans (fun account _ => ?_) s
    refine .each OnlySends.refl OnlySends.trans fun tx _ => ?_
    split_ifs
    · exact .bind OnlySends.trans (.lift OnlySends.refl _) fun s' txMessage _ => write_to_node_sends txMessage _
    · exact OnlySends.refl

/-- One inventory: its block is added to the message, or it is added to what was not found. -/
theorem handle_inventory_ok {inv : Inventory} {reply reply' : GetdataReply} {s s' : PeerState}
    (ran : (handleInventory inv reply).run s = (.ok reply', s')) :
    OnlySends s s' ∧ ∃ frames, (present s.node.blockchain.blocks [inv]).mapM getBlockMessage = .ok frames ∧
      reply' = ⟨reply.messageToSend ++ frames.flatten,
        reply.notfoundInventories ++ missing s.node.blockchain.blocks [inv]⟩ := by
  obtain ⟨_, middle, sent, ran⟩ := Proc.run_bind_eq_ok ran
  have moved : OnlySends s middle := by
    have state : _ = middle := congrArg Prod.snd sent
    rw [← state]
    split_ifs
    · exact handle_tx_inventory_sends inv s
    · exact OnlySends.refl s
  rw [Proc.run_bind_ok _ (Proc.run_get middle), moved.1] at ran
  by_cases asked : inv.typeIdentifier = msgBlock
  · rw [if_pos asked] at ran
    obtain ⟨handled, rfl⟩ := Prod.mk.inj ran
    refine ⟨moved, ?_⟩
    have handled := Outcome.widen_eq_ok.mp handled
    rw [handleBlockInventory] at handled
    rcases found : s.node.blockchain.blocks.get inv.hash with _ | block <;> rw [found] at handled
    · cases handled
      exact ⟨[], by simp [present, requested, asked, found], by simp [missing, requested, asked, found]⟩
    · obtain ⟨message, written, same⟩ := Outcome.bind_eq_ok.mp handled
      cases same
      refine ⟨[message], ?_, by simp [missing, requested, asked, found]⟩
      simp [present, requested, asked, found, written]
  · rw [if_neg asked] at ran
    cases ran
    exact ⟨moved, [], by simp [present, requested, asked], by simp [missing, requested, asked]⟩

theorem handle_inventories_ok {inventories : List Inventory} {reply reply' : GetdataReply} {s s' : PeerState}
    (ran : (handleInventories inventories reply).run s = (.ok reply', s')) :
    OnlySends s s' ∧ ∃ frames, (present s.node.blockchain.blocks inventories).mapM getBlockMessage = .ok frames ∧
      reply' = ⟨reply.messageToSend ++ frames.flatten,
        reply.notfoundInventories ++ missing s.node.blockchain.blocks inventories⟩ := by
  induction inventories generalizing reply s with
  | nil =>
    cases ran
    exact ⟨OnlySends.refl s', [], rfl, by simp [missing, requested]⟩
  | cons inv inventories ih =>
    obtain ⟨middle, s'', handled, ran⟩ := Proc.run_bind_eq_ok ran
    obtain ⟨moved, frames, written, rfl⟩ := handle_inventory_ok handled
    obtain ⟨moved', frames', written', rfl⟩ := ih ran
    rw [moved.1] at written'
    refine ⟨moved.trans _ _ _ moved', frames ++ frames', ?_, ?_⟩
    · have split : present s.node.blockchain.blocks (inv :: inventories) =
          present s.node.blockchain.blocks [inv] ++ present s.node.blockchain.blocks inventories := by
        rw [← List.singleton_append]
        simp only [present, requested, List.filter_append, List.filterMap_append]
      rw [split, List.mapM_append, written, written']
      rfl
    · rw [moved.1, List.flatten_append, List.append_assoc, List.append_assoc]
      congr 2
      rw [← List.singleton_append (l := inventories)]
      simp only [missing, requested, List.filter_append]

/-- The blocks of the node, each under its hash, as messages brought them. -/
def StoredBlocks (blocks : HashMap Hash Block) : Prop :=
  ∀ hash block, blocks.get hash = some block → block.hash = hash ∧
    ∃ payload : List UInt8, payload.length < 2 ^ 32 ∧ BlockMessage.unmarshalling payload = .ok block

/-- The bytes are whole messages: a block message for each block that is there, in the order of the
request, and then, if and only if some are missing, a notfound message that is read as just these. -/
def Answers (blocks : HashMap Hash Block) (inventories : List Inventory) (written : List UInt8) : Prop :=
  ∃ messages frames found last, (∀ message ∈ messages, Sendable message) ∧
    messages.mapM framed = .ok frames ∧ written = frames.flatten ∧ messages = found ++ last ∧
    List.Forall₂ (fun block message => message.1 = "block" ∧ BlockMessage.unmarshalling message.2 = .ok block)
      (present blocks inventories) found ∧
    if missing blocks inventories = [] then last = []
    else ∃ payload stop, last = [("notfound", payload)] ∧
      GetDataPayload.unmarshalling payload 0 = .ok (missing blocks inventories, stop)

theorem framed_cancel {message message' : String × List UInt8} (sendable : Sendable message)
    (sendable' : Sendable message') {frame frame' back back' : List UInt8}
    (written : framed message = .ok frame) (written' : framed message' = .ok frame')
    (same : frame ++ back = frame' ++ back') : message = message' ∧ back = back' := by
  have read := read_message_framed sendable written back []
  have read' := read_message_framed sendable' written' back' []
  rw [same, read'] at read
  obtain ⟨first, rest⟩ := Prod.mk.inj read
  exact ⟨(Except.ok.inj first).symm, (List.cons.inj rest).1.symm⟩

theorem frames_cancel {messages messages' : List (String × List UInt8)}
    (sendable : ∀ message ∈ messages, Sendable message) (sendable' : ∀ message ∈ messages', Sendable message)
    (length : messages.length = messages'.length) {frames frames' : List (List UInt8)} {back back' : List UInt8}
    (written : messages.mapM framed = .ok frames) (written' : messages'.mapM framed = .ok frames')
    (same : frames.flatten ++ back = frames'.flatten ++ back') : back = back' := by
  induction messages generalizing messages' frames frames' with
  | nil =>
    obtain rfl := List.length_eq_zero_iff.mp length.symm
    cases written
    cases written'
    exact same
  | cons message messages ih =>
    obtain ⟨message', messages', rfl⟩ := List.exists_cons_of_length_pos (l := messages') (by simp [← length])
    rw [List.mapM_cons] at written written'
    obtain ⟨frame, first, written⟩ := Outcome.bind_eq_ok.mp written
    obtain ⟨frames, rest, eq⟩ := Outcome.bind_eq_ok.mp written
    obtain ⟨frame', first', written'⟩ := Outcome.bind_eq_ok.mp written'
    obtain ⟨frames', rest', eq'⟩ := Outcome.bind_eq_ok.mp written'
    cases eq
    cases eq'
    simp only [List.flatten_cons, List.append_assoc] at same
    obtain ⟨_, same⟩ := framed_cancel (sendable message List.mem_cons_self)
      (sendable' message' List.mem_cons_self) first first' same
    exact ih (fun m member => sendable m (List.mem_cons_of_mem _ member))
      (fun m member => sendable' m (List.mem_cons_of_mem _ member)) (Nat.succ.inj length) rest rest' same

theorem inv_message_not_inventories {inventories : List Inventory} {payload : List UInt8}
    (built : invMershalling inventories = .ok payload) {asked : List Inventory} (some : asked ≠ [])
    (blocks : ∀ inventory ∈ asked, inventory.typeIdentifier = msgBlock) (stop : Nat) :
    GetDataPayload.unmarshalling payload 0 ≠ .ok (asked, stop) := by
  intro decoded
  obtain ⟨_, _, count, ⟨⟨firstByte, rest, shape, length⟩, _⟩, word⟩ :=
    GetDataPayload.unmarshalling_spans payload 0 asked stop (Nat.zero_le _) decoded
  obtain ⟨inventory, others, rfl⟩ := List.exists_cons_of_ne_nil some
  obtain ⟨name, padded⟩ := @command_name_to_bytes_of_fits "inv" (by decide +kernel)
  -- the message starts with the four bytes of the network, of which the first is read as the count
  have start : ∃ back, payload = 0x0b :: 0x11 :: back := by
    rw [invMershalling, HeaderMessage.toLeBytes, padded] at built
    exact ⟨_, (Except.ok.inj built).symm⟩
  obtain ⟨back, rfl⟩ := start
  have typeIdentifier : inventory.toLeBytes = 2 :: 0 :: 0 :: 0 :: inventory.hash.val := by
    rw [Inventory.toLeBytes, blocks inventory List.mem_cons_self]
    rfl
  rw [CompactSizeUint.marshalling, shape, List.flatMap_cons, typeIdentifier, slice, List.drop_zero] at word
  rcases stop with _ | stop
  · cases word
  obtain ⟨rfl, word⟩ := List.cons.inj word
  have none : rest = [] := List.length_eq_zero_iff.mp length
  subst none
  rcases stop with _ | stop <;> cases word

theorem present_messages {blocks : HashMap Hash Block} (stored : StoredBlocks blocks) (inventories : List Inventory)
    {frames : List (List UInt8)} (written : (present blocks inventories).mapM getBlockMessage = .ok frames) :
    let messages := (present blocks inventories).map fun block => ("block", block.marshalling)
    (∀ message ∈ messages, Sendable message) ∧ messages.mapM framed = .ok frames ∧
      List.Forall₂ (fun block message => message.1 = "block" ∧
        BlockMessage.unmarshalling message.2 = .ok block) (present blocks inventories) messages := by
  intro messages
  have decodes : ∀ block ∈ present blocks inventories, block.marshalling.length < 2 ^ 32 ∧
      BlockMessage.unmarshalling block.marshalling = .ok block := by
    intro block member
    obtain ⟨inventory, _, found⟩ := List.mem_filterMap.mp member
    obtain ⟨_, payload, short, decoded⟩ := stored _ block found
    obtain ⟨⟨b, stop⟩, read, same⟩ := Outcome.bind_eq_ok.mp decoded
    cases same
    obtain ⟨_, _, word, valid⟩ := Block.unmarshalling_spans payload 0 block stop (Nat.zero_le _) read
    refine ⟨?_, BlockMessage.unmarshalling_marshalling valid⟩
    rw [← word]
    exact Nat.lt_of_le_of_lt (by simp [slice]) short
  refine ⟨fun message member => ?_, ?_, ?_⟩
  · obtain ⟨block, listed, rfl⟩ := List.mem_map.mp member
    have name : "block".toUTF8.toList.length ≤ 12 := by decide +kernel
    have text : '\x00' ∉ "block".toList := by decide
    exact ⟨name, text, (decodes block listed).1⟩
  · rw [List.mapM_map]
    exact written
  · rw [List.forall₂_map_right_iff, List.forall₂_same]
    exact fun block listed => ⟨rfl, (decodes block listed).2⟩

/-- The handler's answer is right exactly when no block is missing. -/
theorem answers_iff {blocks : HashMap Hash Block} (stored : StoredBlocks blocks) {inventories : List Inventory}
    {frames : List (List UInt8)} (written : (present blocks inventories).mapM getBlockMessage = .ok frames)
    {notfoundMessage : List UInt8}
    (notfound : missing blocks inventories ≠ [] →
      getNotfoundMessage (missing blocks inventories) = .ok notfoundMessage) :
    Answers blocks inventories
        (if missing blocks inventories = [] then frames.flatten else frames.flatten ++ notfoundMessage) ↔
      missing blocks inventories = [] := by
  obtain ⟨sendable, mapped, decodes⟩ := present_messages stored inventories written
  constructor
  · rintro ⟨messages, frames', found, last, sendable', mapped', same, rfl, foundDecodes, lastIs⟩
    by_contra some
    rw [if_neg some] at same lastIs
    obtain ⟨payload, stop, rfl, decoded⟩ := lastIs
    rw [List.mapM_append] at mapped'
    obtain ⟨blocksWritten, first, mapped'⟩ := Outcome.bind_eq_ok.mp mapped'
    obtain ⟨lastWritten, second, eq⟩ := Outcome.bind_eq_ok.mp mapped'
    rw [List.mapM_cons] at second
    obtain ⟨frame, framedLast, second⟩ := Outcome.bind_eq_ok.mp second
    cases eq
    cases second
    obtain ⟨invMessage, built, framedNotfound⟩ := Outcome.bind_eq_ok.mp (notfound some)
    have fits : "notfound".toUTF8.toList.length ≤ 12 := by decide +kernel
    obtain ⟨header, shape⟩ := @framed_shape _ ("notfound", invMessage) fits
    obtain ⟨header', shape'⟩ := @framed_shape _ ("notfound", payload) fits
    have tail : notfoundMessage = frame := by
      refine frames_cancel sendable (fun message member => sendable' message (List.mem_append_left _ member))
        (decodes.length_eq.symm.trans foundDecodes.length_eq) mapped first ?_
      simpa using same
    have bytes : header.val ++ invMessage = header'.val ++ payload := by
      rw [← Except.ok.inj (framedNotfound.symm.trans shape), tail, Except.ok.inj (framedLast.symm.trans shape')]
    obtain ⟨_, rfl⟩ := List.append_inj bytes (header.property.trans header'.property.symm)
    exact inv_message_not_inventories built some missing_block stop decoded
  · intro none
    refine ⟨_, frames, _, [], sendable, mapped, if_pos none, (List.append_nil _).symm, decodes, ?_⟩
    rw [if_pos none]

/-- What the handler writes last, if it gets that far, is the right answer exactly when every block that
is asked for is there. -/
theorem handle_getdata_message_answers_iff {payload : List UInt8} {inventories : List Inventory} {stop : Nat}
    (decoded : GetDataPayload.unmarshalling payload 0 = .ok (inventories, stop)) {s s' : PeerState}
    (stored : StoredBlocks s.node.blockchain.blocks)
    (ran : (handleGetdataMessage payload).run s = (.ok (), s')) :
    ∃ earlier written, s'.tx.sent = s.tx.sent ++ earlier ++ [written] ∧
      (Answers s.node.blockchain.blocks inventories written ↔
        missing s.node.blockchain.blocks inventories = []) := by
  rw [handleGetdataMessage, decoded] at ran
  obtain ⟨_, _, same, ran⟩ := Proc.run_bind_eq_ok ran
  cases same
  obtain ⟨reply, middle, collected, ran⟩ := Proc.run_bind_eq_ok ran
  obtain ⟨⟨_, earlier, sent⟩, frames, written, rfl⟩ := handle_inventories_ok collected
  simp only [List.nil_append] at ran
  have answers (notfoundMessage : List UInt8) := @answers_iff _ _ stored _ _ written notfoundMessage
  by_cases none : missing s.node.blockchain.blocks inventories = []
  · rw [if_pos none] at ran
    have last := write_to_node_ok ran
    have right := answers [] fun some => absurd none some
    rw [if_pos none] at right
    exact ⟨earlier, frames.flatten, by rw [last, sent], right⟩
  · rw [if_neg none] at ran
    obtain ⟨notfoundMessage, _, built, ran⟩ := Proc.run_bind_eq_ok ran
    obtain ⟨notfound, rfl⟩ := Prod.mk.inj built
    have last := write_to_node_ok ran
    have right := answers notfoundMessage fun _ => Outcome.widen_eq_ok.mp notfound
    rw [if_neg none] at right
    exact ⟨earlier, frames.flatten ++ notfoundMessage, by rw [last, sent], right⟩

end Getdata

/-- A node with these blocks and no accounts, and one peer. -/
def PeerState.serving (blocks : HashMap Hash Block) : PeerState :=
  ⟨⟨{ Blockchain.initial with blocks }, [], false⟩, ⟨true, []⟩⟩

/-- A block that the node has. -/
theorem handle_getdata_message_answers_known :
    let _ := OneKey.crates
    let b := Block.minted 1
    let blocks := (∅ : HashMap Hash Block).insert b.hash b
    let payload := getDataPayloadBytes [.newBlock b.hash]
    ∃ earlier written, ((handleGetdataMessage payload).run (.serving blocks)).2.tx.sent =
      earlier ++ [written] ∧ Answers blocks [.newBlock b.hash] written := by
  intro crates b blocks payload
  have decoded : GetDataPayload.unmarshalling payload 0 = .ok ([.newBlock b.hash], payload.length) :=
    GetDataPayload.unmarshalling_payload (by decide)
  have stored : StoredBlocks blocks := by
    intro hash block found
    by_cases same : hash = b.hash
    · subst same
      obtain rfl := Option.some.inj ((HashMap.get_insert ∅ b.hash b).symm.trans found)
      exact ⟨rfl, _, by decide +kernel, BlockMessage.unmarshalling_marshalling (Block.minted_wellFormed 1)⟩
    · cases (HashMap.get_insert_of_ne ∅ same b).symm.trans found
  have here : missing blocks [.newBlock b.hash] = [] := by
    have found : HashMap.get blocks b.hash = some b := HashMap.get_insert ∅ b.hash b
    simp [missing, requested, Inventory.newBlock, found]
  have returned : ((handleGetdataMessage payload).run (.serving blocks)).1 = .ok () := by decide +kernel
  obtain ⟨earlier, written, sent, right⟩ :=
    handle_getdata_message_answers_iff decoded stored (Proc.run_eq_of_returns returned)
  exact ⟨earlier, written, sent, right.mpr here⟩

/-- A block that the node does not have: the notfound message is not read back. -/
theorem handle_getdata_message_unknown :
    let _ := OneKey.crates
    let asked := [Inventory.newBlock (U8Array.replicate 32 7)]
    let payload := getDataPayloadBytes asked
    let ran := (handleGetdataMessage payload).run (.serving ∅)
    GetDataPayload.unmarshalling payload 0 = .ok (asked, payload.length) ∧ StoredBlocks ∅ ∧
      ran.1 = .ok () ∧ ∃ written, ran.2.tx.sent = [written] ∧ ¬Answers ∅ asked written := by
  intro crates asked payload ran
  have empty : StoredBlocks ∅ := fun hash block found => nomatch found
  have sent : getNotfoundMessage asked = .ok (ran.2.tx.sent.headD []) ∧ ran.2.tx.sent.length = 1 := by
    decide +kernel
  obtain ⟨written, one⟩ := List.length_eq_one_iff.mp sent.2
  rw [one] at sent
  refine ⟨GetDataPayload.unmarshalling_payload (by decide), empty, by decide +kernel, written, one, ?_⟩
  exact (@answers_iff _ _ empty asked [] rfl _ fun _ => sent.1).not.mpr (by decide)

end BitcoinNode
