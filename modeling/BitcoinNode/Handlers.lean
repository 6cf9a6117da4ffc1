import BitcoinNode.Account
import BitcoinNode.Blockchain
import BitcoinNode.Messages
import BitcoinNode.Lib.Runs

/-! The handlers of headers and block messages. A handler that fails leaves the state as it was
at that moment; logs and events for the user interface are left out. -/
namespace BitcoinNode

/-- `accountsPoisoned`: a thread panicked while it was writing the accounts. -/
structure NodeDataPointers where
  blockchain : Blockchain
  accounts : List Account
  accountsPoisoned : Bool

/-- A channel to the thread that writes to one peer. -/
structure NodeSender where
  open_ : Bool
  sent : List (List UInt8)

/-- What the handler of one peer can reach. -/
structure PeerState where
  node : NodeDataPointers
  tx : NodeSender

abbrev Handler (α : Type) := Proc NodeDataPointers NodeCustomErrors α

def poisoned : NodeCustomErrors := .LockError "poisoned lock: another task failed inside"

/-- `tx.send(bytes)` fails once the receiver is gone. -/
def NodeSender.send (bytes : List UInt8) : Proc NodeSender NodeCustomErrors Unit := do
  let tx ← Proc.get
  if tx.open_ then Proc.modify fun tx => { tx with sent := tx.sent ++ [bytes] }
  else Proc.lift (Outcome.fail (.ThreadChannelError "sending on a closed channel"))

/-- The headers that the duplicate check looks at. -/
def last10Headers (headers : List BlockHeader) : List BlockHeader :=
  headers.drop (headers.length - 10)

def headerIsNotIncluded (header : BlockHeader) (headers : List BlockHeader) : Bool :=
  !(last10Headers headers).contains header

theorem header_is_not_included_iff {header : BlockHeader} {headers : List BlockHeader} :
    headerIsNotIncluded header headers = true ↔ header ∉ last10Headers headers := by
  simp [headerIsNotIncluded]

section Handlers

variable [Crates]

/-- Heights are counted on from the number of headers stored now. -/
def loadHeaderHeights (headers : List BlockHeader) (chain : Blockchain) : Blockchain :=
  { chain with
    headerHeights := headers.zipIdx.foldl (fun heights (header, i) =>
      heights.insert header.hash (chain.headers.length + i)) chain.headerHeights }

def NodeDataPointers.onBlockchain (f : Blockchain → Blockchain) (s : NodeDataPointers) :
    NodeDataPointers := { s with blockchain := f s.blockchain }

/-- One header of a headers message. Its height is loaded whatever the checks say. -/
def handleHeader (header : BlockHeader) : Proc PeerState NodeCustomErrors Unit := do
  let valid ← Proc.lift header.validate.widen
  if valid then do
    let s ← Proc.get
    if headerIsNotIncluded header s.node.blockchain.headers then do
      let bytes ← Proc.lift (GetDataMessage.new [.newBlock header.hash]).marshalling.widen
      Proc.zoom PeerState.tx (fun tx s => { s with tx }) (NodeSender.send bytes)
    else pure ()
  else pure ()
  Proc.modify fun s => { s with node := s.node.onBlockchain (loadHeaderHeights [header]) }

def handleHeadersMessage (payload : List UInt8) : Proc PeerState NodeCustomErrors Unit := do
  let (newHeaders, _) ← Proc.lift
    (Outcome.mapErr .UnmarshallingError (HeadersMessage.unmarshalling payload 0))
  Proc.each newHeaders handleHeader

def includeNewHeader (header : BlockHeader) (chain : Blockchain) : Blockchain :=
  let headers := chain.headers ++ [header]
  { chain with
    headers
    headerHeights := chain.headerHeights.insert header.hash (headers.length - 1) }

/-- `setUtxos` on one account after the other, and the accounts as they are when one panics. -/
def setAllUtxos (visit : List (Hash × UtxoTuple)) : List Account → Checked Unit × List Account
  | [] => (.ok (), [])
  | account :: rest =>
    match account.setUtxos visit with
    | .ok account => ((setAllUtxos visit rest).1, account :: (setAllUtxos visit rest).2)
    | .error e => (.error e, account :: rest)

/-- The write lock is held throughout, so a panic poisons it. `order` is the order in which the
utxo set is visited. -/
def updateAccountsUtxoSet (order : UtxoSet → List (Hash × UtxoTuple)) : Handler Unit :=
  ⟨fun s =>
    if s.accountsPoisoned then (Outcome.fail poisoned, s)
    else
      match setAllUtxos (order s.blockchain.utxoSet) s.accounts with
      | (.ok (), accounts) => (.ok (), { s with accounts })
      | (.error e, accounts) => (.error e.widen, { s with accounts, accountsPoisoned := true })⟩

/-- Moves the first pending transaction with the hash of `tx`, if `tx` is pending. -/
def Account.confirm (tx : Transaction) (account : Account) : Account :=
  if tx ∈ account.pendingTransactions then
    match account.pendingTransactions.findIdx? (·.hash == tx.hash) with
    | some i =>
      { account with
        pendingTransactions := account.pendingTransactions.eraseIdx i
        confirmedTransactions :=
          account.confirmedTransactions ++ account.pendingTransactions[i]?.toList }
    | none => account
  else account

def Block.containsPendingTx (b : Block) : Handler Unit :=
  Proc.each b.txn fun tx => do
    let s ← Proc.get
    if s.accountsPoisoned then Proc.lift (Outcome.fail poisoned)
    else Proc.modify fun s => { s with accounts := s.accounts.map (Account.confirm tx) }

def includeNewBlock (b : Block) (chain : Blockchain) : Blockchain :=
  { chain with blocks := chain.blocks.insert b.hash b }

/-- What a block that is accepted and not known brings about. -/
def applyNewBlock (newBlock : Block) (order : UtxoSet → List (Hash × UtxoTuple)) : Handler Unit := do
  Proc.modify (·.onBlockchain (includeNewHeader newBlock.blockHeader))
  Proc.zoom (·.blockchain.utxoSet) (fun utxoSet s => s.onBlockchain ({ · with utxoSet }))
    newBlock.giveMeUtxos.widen
  updateAccountsUtxoSet order
  newBlock.containsPendingTx
  Proc.modify (·.onBlockchain (includeNewBlock newBlock))

def handleBlockMessage (payload : List UInt8) (order : UtxoSet → List (Hash × UtxoTuple)) :
    Handler Unit := do
  let newBlock ← Proc.lift (Outcome.mapErr .UnmarshallingError (BlockMessage.unmarshalling payload))
  let (valid, _) ← Proc.lift newBlock.validate.widen
  if valid then do
    let s ← Proc.get
    if headerIsNotIncluded newBlock.blockHeader s.blockchain.headers then
      applyNewBlock newBlock order
    else pure ()
  else pure ()

def AcceptedBlock (payload : List UInt8) (b : Block) : Prop :=
  BlockMessage.unmarshalling payload = .ok b ∧ b.Accepted

/-- The payload of a block that the handler goes on to apply. -/
def NewBlock (headers : List BlockHeader) (payload : List UInt8) (b : Block) : Prop :=
  AcceptedBlock payload b ∧ b.blockHeader ∉ last10Headers headers

theorem NewBlock.of_wellFormed {headers : List BlockHeader} {b : Block} (valid : b.WellFormed) (accepted : b.Accepted)
    (outside : b.blockHeader ∉ last10Headers headers) : NewBlock headers b.marshalling b :=
  ⟨⟨BlockMessage.unmarshalling_marshalling valid, accepted⟩, outside⟩

theorem NewBlock.first {b : Block} (valid : b.WellFormed) (accepted : b.Accepted)
    (other : b.blockHeader ≠ genesisBlockHeader) : NewBlock Blockchain.initial.headers b.marshalling b :=
  .of_wellFormed valid accepted fun member => other (List.mem_singleton.mp (List.mem_of_mem_drop member))

theorem NewBlock.unique {headers : List BlockHeader} {payload : List UInt8} {b b' : Block}
    (new : NewBlock headers payload b) (new' : NewBlock headers payload b') : b = b' :=
  Except.ok.inj (new.1.1.symm.trans new'.1.1)

theorem handle_block_message_new {s : NodeDataPointers} {payload : List UInt8} {b : Block}
    (new : NewBlock s.blockchain.headers payload b) (order : UtxoSet → List (Hash × UtxoTuple)) :
    (handleBlockMessage payload order).run s = (applyNewBlock b order).run s := by
  obtain ⟨⟨decoded, text, accepted⟩, unknown⟩ := new
  have check := header_is_not_included_iff.mpr unknown
  simp [handleBlockMessage, decoded, accepted, Proc.run_bind, check]

theorem handle_block_message_other {s : NodeDataPointers} {payload : List UInt8}
    (other : ∀ b, ¬NewBlock s.blockchain.headers payload b)
    (order : UtxoSet → List (Hash × UtxoTuple)) :
    ((handleBlockMessage payload order).run s).2 = s := by
  rw [handleBlockMessage]
  rcases decoded : BlockMessage.unmarshalling payload with e | b
  · simp only [Proc.run_bind, Proc.run_lift]
    cases e <;> rfl
  rcases validated : b.validate with e | ⟨valid, text⟩
  · simp [Proc.run_bind, validated]
  cases valid with
  | false => simp [Proc.run_bind, validated]
  | true =>
    have known : headerIsNotIncluded b.blockHeader s.blockchain.headers = false :=
      Bool.eq_false_iff.mpr fun unknown =>
        other b ⟨⟨decoded, text, validated⟩, header_is_not_included_iff.mp unknown⟩
    simp [Proc.run_bind, validated, known]

def NodeDataPointers.index (s : NodeDataPointers) : List BlockHeader × HashMap Hash Nat :=
  (s.blockchain.headers, s.blockchain.headerHeights)

/-- Nothing after `includeNewHeader` touches headers or heights, even when it fails. -/
theorem apply_new_block_index (b : Block) (order : UtxoSet → List (Hash × UtxoTuple))
    (s : NodeDataPointers) : ((applyNewBlock b order).run s).2.index =
      (s.blockchain.headers ++ [b.blockHeader],
        s.blockchain.headerHeights.insert b.hash s.blockchain.headers.length) := by
  have accounts : (updateAccountsUtxoSet order).Keeps NodeDataPointers.index := by
    intro s
    simp only [updateAccountsUtxoSet]
    split_ifs
    · rfl
    · split <;> rfl
  have pending : b.containsPendingTx.Keeps NodeDataPointers.index :=
    .each fun tx _ => .bind .get fun s => by
      split_ifs
      · exact .lift _
      · exact .modify fun _ => rfl
  have rest (u : Proc UtxoSet NodeCustomErrors Unit) : (do
      Proc.zoom (·.blockchain.utxoSet) (fun utxoSet s => s.onBlockchain ({ · with utxoSet })) u
      updateAccountsUtxoSet order
      b.containsPendingTx
      Proc.modify (·.onBlockchain (includeNewBlock b)) : Handler Unit).Keeps NodeDataPointers.index :=
    .bind (.zoom _ fun _ _ => rfl) fun _ => .bind accounts fun _ => .bind pending fun _ =>
      .modify fun _ => rfl
  rw [applyNewBlock, Proc.run_bind, Proc.run_modify]
  apply (rest _ _).trans
  simp [NodeDataPointers.index, NodeDataPointers.onBlockchain, includeNewHeader, Block.hash]

/-- The header gets as far as having its height loaded. -/
def heightLoaded (headers : List BlockHeader) (open_ : Bool) (header : BlockHeader) : Bool :=
  match header.validate with
  | .ok valid => !valid || !headerIsNotIncluded header headers || open_
  | .error _ => false

theorem handle_header_loaded {s : PeerState} {header : BlockHeader}
    (loaded : heightLoaded s.node.blockchain.headers s.tx.open_ header) :
    ∃ tx, tx.open_ = s.tx.open_ ∧ (handleHeader header).run s =
      (.ok (), ⟨s.node.onBlockchain (loadHeaderHeights [header]), tx⟩) := by
  obtain ⟨bytes, built⟩ := GetDataMessage.marshalling_new [.newBlock header.hash]
  rw [heightLoaded] at loaded
  rcases validated : header.validate with e | valid
  · simp [validated] at loaded
  cases valid with
  | false => exact ⟨s.tx, rfl, by simp [handleHeader, Proc.run_bind, validated]⟩
  | true =>
    cases unknown : headerIsNotIncluded header s.node.blockchain.headers with
    | false => exact ⟨s.tx, rfl, by simp [handleHeader, Proc.run_bind, validated, unknown]⟩
    | true =>
      have alive : s.tx.open_ = true := by simpa [validated, unknown] using loaded
      refine ⟨{ s.tx with sent := s.tx.sent ++ [bytes] }, rfl, ?_⟩
      simp [handleHeader, Proc.run_bind, validated, unknown, built, NodeSender.send, alive]

theorem handle_header_stopped {s : PeerState} {header : BlockHeader}
    (stopped : heightLoaded s.node.blockchain.headers s.tx.open_ header = false) :
    ∃ e, (handleHeader header).run s = (.error e, s) := by
  obtain ⟨bytes, built⟩ := GetDataMessage.marshalling_new [.newBlock header.hash]
  rw [heightLoaded] at stopped
  rcases validated : header.validate with e | valid
  · exact ⟨e.widen, by simp [handleHeader, Proc.run_bind, validated]⟩
  · simp only [validated, Bool.or_eq_false_iff, Bool.not_eq_false'] at stopped
    obtain ⟨⟨rfl, unknown⟩, closed⟩ := stopped
    refine ⟨.err (.ThreadChannelError "sending on a closed channel"), ?_⟩
    simp [handleHeader, Proc.run_bind, validated, unknown, built, NodeSender.send, closed,
      Outcome.fail]

/-- The loop over the headers of a message loads the heights of those before the first failure. -/
theorem each_handle_header (newHeaders : List BlockHeader) (s : PeerState) :
    ((Proc.each newHeaders handleHeader).run s).2.node =
      (newHeaders.takeWhile (heightLoaded s.node.blockchain.headers s.tx.open_)).foldl
        (fun node header => node.onBlockchain (loadHeaderHeights [header])) s.node := by
  induction newHeaders generalizing s with
  | nil => rfl
  | cons header rest ih =>
    cases loaded : heightLoaded s.node.blockchain.headers s.tx.open_ header with
    | false =>
      obtain ⟨e, stopped⟩ := handle_header_stopped loaded
      rw [Proc.each, Proc.run_bind_error _ stopped, List.takeWhile_cons, if_neg (by simp [loaded])]
      rfl
    | true =>
      obtain ⟨tx, alive, step⟩ := handle_header_loaded loaded
      rw [Proc.each, Proc.run_bind_ok _ step, ih, List.takeWhile_cons, if_pos loaded, alive]
      rfl

def announced (headers : List BlockHeader) (open_ : Bool) (payload : List UInt8) : List BlockHeader :=
  match HeadersMessage.unmarshalling payload 0 with
  | .ok (newHeaders, _) => newHeaders.takeWhile (heightLoaded headers open_)
  | .error _ => []

theorem handle_headers_message_node (payload : List UInt8) (s : PeerState) :
    ((handleHeadersMessage payload).run s).2.node =
      (announced s.node.blockchain.headers s.tx.open_ payload).foldl
        (fun node header => node.onBlockchain (loadHeaderHeights [header])) s.node := by
  rw [handleHeadersMessage, announced]
  rcases decoded : HeadersMessage.unmarshalling payload 0 with e | ⟨newHeaders, _⟩
  · cases e <;> rfl
  · rw [Proc.run_bind, Proc.run_lift]
    exact each_handle_header newHeaders s

end Handlers

end BitcoinNode
