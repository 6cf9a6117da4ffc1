import BitcoinNode.SentMessages
import BitcoinNode.WirePayments

/-! The turns that relay payments: the wallet makes one, and the thread of a peer reads an inv message, a
request for a transaction, or a transaction. Each is described by what it writes to the peer and what it
leaves of the accounts. -/
namespace BitcoinNode

/-- A payment is announced, asked for and sent in these messages. -/
def announcePayment (hash : Hash) : String × List UInt8 := ("inv", getDataPayloadBytes [.newTx hash])
def requestPayment (hash : Hash) : String × List UInt8 := ("getdata", getDataPayloadBytes [.newTx hash])
def deliverPayment (tx : Transaction) : String × List UInt8 := ("tx", tx.marshalling)

/-- Every output in the set is one of a real transaction. -/
def RealSet (utxoSet : UtxoSet) : Prop :=
  ∀ visit, HashMap.Enumerates utxoSet visit → RealOutputs (visit.map Prod.snd)

theorem news_one (transactionsReceived : List Hash) (hash : Hash) :
    news transactionsReceived [.newTx hash] = if hash ∈ transactionsReceived then [] else [hash] := by
  split_ifs with known
  · exact (news_cons_of_known fun isNew => isNew.2 known).trans (news_nil _)
  · rw [news_cons_of_new ⟨rfl, known⟩, news_nil]
    rfl

section Handlers

variable [WalletCrates]

/-- The bytes are these messages, one after the other. -/
def OnWire (messages : List (String × List UInt8)) (bytes : List UInt8) : Prop :=
  ∃ written, messages.mapM framed = .ok written ∧ written.flatten = bytes

theorem OnWire.nil : OnWire [] [] := ⟨[], rfl, rfl⟩

theorem OnWire.append {messages more : List (String × List UInt8)} {bytes bytes' : List UInt8}
    (first : OnWire messages bytes) (rest : OnWire more bytes') : OnWire (messages ++ more) (bytes ++ bytes') := by
  obtain ⟨written, built, rfl⟩ := first
  obtain ⟨written', built', rfl⟩ := rest
  refine ⟨written ++ written', ?_, List.flatten_append⟩
  rw [List.mapM_append, built, built']
  rfl

theorem handle_inv_message_asks {inventories : List Inventory} (fits : inventories.length < 2 ^ 64) {s : InvState}
    (alive : s.tx.open_ = true) :
    let new := news s.transactionsReceived inventories
    ∃ messages, (handleInvMessage (getDataPayloadBytes inventories)).run s =
        (.ok (), ⟨s.transactionsReceived ++ new, { s.tx with sent := s.tx.sent ++ messages }⟩) ∧
      (if new = [] then [] else [new]).mapM (fun hashes =>
        framed ("getdata", getDataPayloadBytes (hashes.map Inventory.newTx))) = .ok messages := by
  intro new
  have counts := CompactSizeUint.new_counts fits
  have read := CompactSizeUint.unmarshalling_reads counts.1 [] (inventories.flatMap Inventory.toLeBytes)
  have noted := receive_inventories_reads [] inventories (CompactSizeUint.new inventories.length).marshalling [] s
  rw [notes_run, List.nil_append, List.append_nil] at noted
  rw [List.nil_append, List.length_nil, Nat.zero_add] at read
  have decoded : (CompactSizeUint.new inventories.length).decodedValue.widen =
      (.ok inventories.length : Outcome NodeCustomErrors Nat) := by rw [counts.2, Outcome.widen_ok]
  rw [getDataPayloadBytes, handleInvMessage, read, Outcome.mapErr_ok, Proc.run_bind_ok _ (Proc.run_lift _ s)]
  dsimp only
  rw [decoded, Proc.run_bind_ok _ (Proc.run_lift _ s), Proc.run_bind_ok _ noted]
  by_cases none : new = []
  · refine ⟨[], ?_, by rw [if_pos none]; rfl⟩
    rw [show news s.transactionsReceived inventories = [] from none, none]
    simp
  · have some : (news s.transactionsReceived inventories).map Inventory.newTx ≠ [] := by simpa using none
    obtain ⟨bytes, built⟩ := GetDataMessage.marshalling_new (new.map Inventory.newTx)
    refine ⟨[bytes], ?_, ?_⟩
    · rw [if_neg some, askForIncomingTx, built, Outcome.widen_ok, Proc.run_bind_ok _ (Proc.run_lift _ _),
        Proc.run_zoom, NodeSender.send, Proc.run_bind_ok _ (Proc.run_get _), if_pos alive]
      rfl
    · have written : framed ("getdata", getDataPayloadBytes (new.map Inventory.newTx)) = .ok bytes := built
      rw [if_neg none, List.mapM_cons, written]
      rfl

theorem each_sends (hash : Hash) (txs : List Transaction) {s : PeerState} (alive : s.tx.open_ = true) :
    ∃ messages, (txs.filter (·.hash = hash)).mapM getTxMessage = .ok messages ∧
      (Proc.each txs fun tx =>
        if tx.hash = hash then do
          let txMessage ← Proc.lift (getTxMessage tx).widen
          writeToNode txMessage
        else pure ()).run s = (.ok (), { s with tx := { s.tx with sent := s.tx.sent ++ messages } }) := by
  induction txs generalizing s with
  | nil => exact ⟨[], rfl, by simp⟩
  | cons tx txs ih =>
    rw [Proc.each]
    by_cases same : tx.hash = hash
    · have fits : "tx".toUTF8.toList.length ≤ 12 := by decide +kernel
      obtain ⟨header, written⟩ := @framed_shape _ ("tx", tx.marshalling) fits
      have sends : (writeToNode (header.val ++ tx.marshalling)).run s =
          (.ok (), { s with tx := { s.tx with sent := s.tx.sent ++ [header.val ++ tx.marshalling] } }) := by
        rw [writeToNode, Proc.run_zoom, NodeSender.send, Proc.run_bind_ok _ (Proc.run_get _), if_pos alive]
        rfl
      obtain ⟨messages, built, ran⟩ :=
        @ih { s with tx := { s.tx with sent := s.tx.sent ++ [header.val ++ tx.marshalling] } } alive
      refine ⟨(header.val ++ tx.marshalling) :: messages, ?_, ?_⟩
      · rw [List.filter_cons_of_pos (by simpa using same), List.mapM_cons, getTxMessage, written, built]
        rfl
      · rw [if_pos same, getTxMessage, written, Outcome.widen_ok]
        rw [Proc.run_bind_ok _ ((Proc.run_bind_ok _ (Proc.run_lift _ _)).trans sends), ran]
        simp
    · obtain ⟨messages, built, ran⟩ := ih alive
      refine ⟨messages, ?_, ?_⟩
      · rwa [List.filter_cons_of_neg (by simpa using same)]
      · rw [if_neg same, Proc.run_bind_ok _ (Proc.run_pure _ _), ran]

theorem handle_tx_inventory_run (hash : Hash) {s : PeerState} (alive : s.tx.open_ = true)
    (unpoisoned : s.node.accountsPoisoned = false) :
    ∃ messages, ((s.node.accounts.flatMap Account.pendingTransactions).filter (·.hash = hash)).mapM getTxMessage =
        .ok messages ∧
      (handleTxInventory (.newTx hash)).run s =
        (.ok (), { s with tx := { s.tx with sent := s.tx.sent ++ messages } }) := by
  rw [handleTxInventory, Proc.run_bind_ok _ (Proc.run_get s), unpoisoned, if_neg Bool.false_ne_true]
  generalize s.node.accounts = accounts
  induction accounts generalizing s with
  | nil => exact ⟨[], rfl, by simp⟩
  | cons account accounts ih =>
    obtain ⟨first, built, ran⟩ := each_sends hash account.pendingTransactions alive
    obtain ⟨rest, built', ran'⟩ := @ih { s with tx := { s.tx with sent := s.tx.sent ++ first } } alive unpoisoned
    refine ⟨first ++ rest, ?_, ?_⟩
    · rw [List.flatMap_cons, List.filter_append, List.mapM_append, built, built']
      rfl
    · rw [Proc.each]
      refine (Proc.run_bind_ok _ ran).trans ?_
      rw [ran', List.append_assoc]

theorem handle_getdata_message_one (hash : Hash) (s : PeerState) :
    (handleGetdataMessage (getDataPayloadBytes [.newTx hash])).run s = (do
      handleTxInventory (.newTx hash)
      writeToNode [] : Proc PeerState NodeCustomErrors Unit).run s := by
  have tx : Inventory.typeIdentifier (.newTx hash) = msgTx := rfl
  have other : ¬msgTx = msgBlock := by decide
  have fits : [Inventory.newTx hash].length < 2 ^ 64 := Nat.one_lt_two_pow (by decide)
  rw [handleGetdataMessage, GetDataPayload.unmarshalling_payload fits, Outcome.mapErr_ok,
    Proc.run_bind_ok _ (Proc.run_lift _ s)]
  simp only [handleInventories, handleInventory, tx, if_neg other, if_true]
  rw [Proc.run_bind, Proc.run_bind, Proc.run_bind, Proc.run_bind]
  rcases (handleTxInventory (.newTx hash)).run s with ⟨e | _, s'⟩ <;> rfl

theorem handle_getdata_message_sends (hash : Hash) {s : PeerState} (alive : s.tx.open_ = true)
    (unpoisoned : s.node.accountsPoisoned = false) :
    let found := (s.node.accounts.flatMap Account.pendingTransactions).filter (·.hash = hash)
    ∃ messages, found.mapM getTxMessage = .ok messages ∧
      (handleGetdataMessage (getDataPayloadBytes [.newTx hash])).run s =
        (.ok (), { s with tx := { s.tx with sent := s.tx.sent ++ messages ++ [[]] } }) := by
  obtain ⟨messages, built, ran⟩ := handle_tx_inventory_run hash alive unpoisoned
  refine ⟨messages, built, ?_⟩
  rw [handle_getdata_message_one, Proc.run_bind_ok _ ran, writeToNode, Proc.run_zoom, NodeSender.send,
    Proc.run_bind_ok _ (Proc.run_get _), if_pos alive]
  rfl

theorem handle_getdata_message_poisoned (hash : Hash) {s : PeerState} (dead : s.node.accountsPoisoned = true) :
    ∃ e, (handleGetdataMessage (getDataPayloadBytes [.newTx hash])).run s = (.error e, s) := by
  have refused : (handleTxInventory (.newTx hash)).run s = (Outcome.fail poisoned, s) := by
    rw [handleTxInventory, Proc.run_bind_ok _ (Proc.run_get s), if_pos dead]
    rfl
  exact ⟨.err poisoned, (handle_getdata_message_one hash s).trans (Proc.run_bind_error _ refused)⟩

end Handlers

namespace RunningNode

variable {s : RunningNode} {turn : NodeTurn} {peer : Nat}

def Running (s : RunningNode) (peer : Nat) : Prop :=
  s.aborted = false ∧ ∃ tx, s.peers[peer]? = some tx ∧ tx.open_ = true

def written (s : RunningNode) (peer : Nat) : List UInt8 :=
  (s.peers[peer]?.map fun tx => tx.sent.flatten).getD []

def pendingTransactions (s : RunningNode) : List Transaction :=
  s.wallet.accounts.flatMap (·.pendingTransactions)

/-- What a message leaves: these bytes for its peer, and these hashes for all of them. -/
structure Turned (s s' : RunningNode) (peer : Nat) (bytes : List UInt8) (received : List Hash)
    (f : Account → Account) : Prop where
  written : s'.written peer = s.written peer ++ bytes
  others : ∀ other, other ≠ peer → s'.written other = s.written other
  running : ∀ other, s'.Running other → s.Running other
  accounts : s'.wallet.accounts = s.wallet.accounts.map fun account => { account with toAccount := f account.toAccount }
  transactionsReceived : s'.transactionsReceived = s.transactionsReceived ++ received
  blockchain : s'.blockchain = s.blockchain
  connected : s'.wallet.nodesSender.length = s.wallet.nodesSender.length

theorem Turned.pendingTransactions {s' : RunningNode} {bytes : List UInt8} {received : List Hash}
    {f : Account → Account} (turned : s.Turned s' peer bytes received f) : s'.pendingTransactions =
      s.wallet.accounts.flatMap fun account => (f account.toAccount).pendingTransactions := by
  rw [RunningNode.pendingTransactions, turned.accounts, List.flatMap_map]

theorem with_reach_peers (s : RunningNode) (peer : Nat) (reach : Reach) :
    (s.withReach peer reach).peers = s.peers.set peer reach.tx := List.take_append_drop _ _

theorem written_of_some {tx : NodeSender} (found : s.peers[peer]? = some tx) : s.written peer = tx.sent.flatten := by
  rw [written, found]
  rfl

theorem zip_map (accounts : List SpendingAccount) (f : Account → Account) :
    List.zipWith (fun (spending : SpendingAccount) (account : Account) => { spending with toAccount := account })
        accounts (accounts.map fun account => f account.toAccount) =
      accounts.map fun account => { account with toAccount := f account.toAccount } := by
  induction accounts with
  | nil => rfl
  | cons account accounts ih => rw [List.map_cons, List.zipWith_cons_cons, ih, List.map_cons]

theorem with_reach_turned {tx : NodeSender} (found : s.peers[peer]? = some tx) (alive : tx.open_ = true)
    (running : s.aborted = false) (reach : Reach) {messages : List (List UInt8)} {received : List Hash}
    {f : Account → Account} (sent : reach.tx.sent = tx.sent ++ messages)
    (accounts : reach.node.accounts = s.node.accounts.map f) (blockchain : reach.node.blockchain = s.blockchain)
    (transactionsReceived : reach.transactionsReceived = s.transactionsReceived ++ received) (aborted : Bool) :
    s.Turned { s.withReach peer reach with aborted } peer messages.flatten received f := by
  have peers : ({ s.withReach peer reach with aborted } : RunningNode).peers = s.peers.set peer reach.tx :=
    s.with_reach_peers peer reach
  have inside : peer < s.peers.length := (List.getElem?_eq_some_iff.mp found).1
  constructor
  case written =>
    rw [written_of_some (peers ▸ List.getElem?_set_self inside), written_of_some found, sent, List.flatten_append]
  case others =>
    intro other apart
    rw [written, peers, List.getElem?_set_ne (Ne.symm apart)]
    rfl
  case running =>
    rintro other ⟨_, tx', found', alive'⟩
    refine ⟨running, ?_⟩
    by_cases same : peer = other
    · exact ⟨tx, same ▸ found, alive⟩
    · rw [peers, List.getElem?_set_ne same] at found'
      exact ⟨tx', found', alive'⟩
  case accounts =>
    have shared : reach.node.accounts = s.wallet.accounts.map fun account => f account.toAccount := by
      rw [accounts, node, List.map_map]
      rfl
    have zipped := zip_map s.wallet.accounts f
    rw [← shared] at zipped
    exact zipped
  case transactionsReceived => exact transactionsReceived
  case blockchain => exact blockchain
  case connected =>
    have length : s.wallet.nodesSender.length ≤ (s.peers.set peer reach.tx).length := by
      rw [List.length_set, RunningNode.peers, List.length_append]
      exact Nat.le_add_right _ _
    exact List.length_take_of_le length

section Turns

variable [WalletCrates]

theorem step_turned {tx : NodeSender} (found : s.peers[peer]? = some tx) (alive : tx.open_ = true)
    (running : s.aborted = false) {commandName : String} {payload : List UInt8}
    (happens : turn.event = .message peer commandName payload) {result : Outcome NodeCustomErrors Unit} {reach : Reach}
    (ran : (handleMessage turn.order commandName payload).run ⟨s.node, tx, s.transactionsReceived⟩ = (result, reach))
    {messages : List (List UInt8)} {received : List Hash} {f : Account → Account}
    (sent : reach.tx = { tx with sent := tx.sent ++ messages })
    (accounts : reach.node.accounts = s.node.accounts.map f) (blockchain : reach.node.blockchain = s.blockchain)
    (transactionsReceived : reach.transactionsReceived = s.transactionsReceived ++ received) :
    s.Turned (s.step turn) peer messages.flatten received f ∧
      ((s.step turn).Running peer ↔ result = .ok ()) := by
  have inside : peer < s.peers.length := (List.getElem?_eq_some_iff.mp found).1
  obtain ⟨tx', aborted, handled, left⟩ := message_open found alive turn.order commandName payload
  rw [ran] at handled left
  have stepped : s.step turn = { s.withReach peer { reach with tx := tx' } with aborted } := by
    rw [step, running, if_neg Bool.false_ne_true, happens]
    exact handled
  have peers : (s.step turn).peers = s.peers.set peer tx' := by
    rw [stepped]
    exact s.with_reach_peers peer { reach with tx := tx' }
  have here : (s.step turn).peers[peer]? = some tx' := peers ▸ List.getElem?_set_self inside
  have same : tx'.sent = tx.sent ++ messages := by
    rcases left with ⟨_, rfl, _⟩ | ⟨_, rfl | ⟨rfl, _⟩⟩ <;> exact congrArg NodeSender.sent sent
  refine ⟨?_, ?_⟩
  · rw [stepped]
    exact with_reach_turned found alive running { reach with tx := tx' } same accounts blockchain
      transactionsReceived aborted
  · rcases left with ⟨returned, rfl, going⟩ | ⟨failed, ended⟩
    · refine iff_of_true ⟨?_, reach.tx, here, ?_⟩ returned
      · rw [stepped]
        exact going.trans running
      · exact (congrArg NodeSender.open_ sent).trans alive
    · refine iff_of_false (fun still => ?_) failed
      obtain ⟨notAborted, tx'', found', alive'⟩ := still
      obtain rfl := Option.some.inj (here.symm.trans found')
      rcases ended with rfl | ⟨_, dead⟩
      · cases alive'
      · rw [stepped] at notAborted
        exact Bool.noConfusion (dead.symm.trans notAborted)

theorem inv_turn (running : s.Running peer) {hash : Hash}
    (happens : turn.event = .message peer "inv" (announcePayment hash).2) :
    let asked := if hash ∈ s.transactionsReceived then [] else [hash]
    ∃ bytes, OnWire (asked.map requestPayment) bytes ∧ s.Turned (s.step turn) peer bytes asked id ∧
      (s.step turn).Running peer := by
  intro asked
  obtain ⟨notAborted, tx, found, alive⟩ := running
  have fits : [Inventory.newTx hash].length < 2 ^ 64 := Nat.one_lt_two_pow (by decide)
  obtain ⟨messages, ran, built⟩ :=
    handle_inv_message_asks fits (show (InvState.mk s.transactionsReceived tx).tx.open_ = true from alive)
  rw [news_one] at ran built
  have handled : (handleMessage turn.order "inv" (announcePayment hash).2).run ⟨s.node, tx, s.transactionsReceived⟩ =
      (.ok (), ⟨s.node, { tx with sent := tx.sent ++ messages }, s.transactionsReceived ++ asked⟩) := by
    show (Reach.onInv (handleInvMessage (getDataPayloadBytes [.newTx hash]))).run _ = _
    rw [Reach.onInv, Proc.run_zoom, ran]
  obtain ⟨turned, goesOn⟩ := step_turned found alive notAborted happens handled rfl (List.map_id _).symm rfl rfl
  refine ⟨messages.flatten, ⟨messages, ?_, rfl⟩, turned, goesOn.mpr rfl⟩
  by_cases known : hash ∈ s.transactionsReceived
  · simpa [asked, known] using built
  · simpa [asked, known, requestPayment] using built

theorem getdata_turn (running : s.Running peer) {hash : Hash}
    (happens : turn.event = .message peer "getdata" (requestPayment hash).2) :
    let found := s.pendingTransactions.filter (·.hash = hash)
    (∃ bytes, OnWire (found.map deliverPayment) bytes ∧ s.Turned (s.step turn) peer bytes [] id) ∨
      s.Turned (s.step turn) peer [] [] id ∧ ¬(s.step turn).Running peer := by
  intro found
  obtain ⟨notAborted, tx, here, alive⟩ := running
  have same : s.node.accounts = s.node.accounts.map id := (List.map_id _).symm
  have handle (r : Reach) : (handleMessage turn.order "getdata" (requestPayment hash).2).run r =
      (Reach.onPeer (handleGetdataMessage (getDataPayloadBytes [.newTx hash]))).run r := rfl
  rcases dead : s.wallet.accountsPoisoned with _ | _
  · left
    obtain ⟨messages, built, ran⟩ :=
      handle_getdata_message_sends hash (show (PeerState.mk s.node tx).tx.open_ = true from alive) dead
    have handled : (handleMessage turn.order "getdata" (requestPayment hash).2).run ⟨s.node, tx, s.transactionsReceived⟩ =
        (.ok (), ⟨s.node, { tx with sent := tx.sent ++ messages ++ [[]] }, s.transactionsReceived⟩) := by
      rw [handle, Reach.onPeer, Proc.run_zoom, ran]
    have sent : ({ tx with sent := tx.sent ++ messages ++ [[]] } : NodeSender) =
        { tx with sent := tx.sent ++ (messages ++ [[]]) } := by rw [List.append_assoc]
    obtain ⟨turned, _⟩ := step_turned here alive notAborted happens handled sent same rfl (List.append_nil _).symm
    have flat : (messages ++ [[]]).flatten = messages.flatten := by simp
    refine ⟨messages.flatten, ⟨messages, ?_, rfl⟩, flat ▸ turned⟩
    rw [node, List.flatMap_map] at built
    rw [List.mapM_map]
    exact built
  · right
    obtain ⟨e, ran⟩ := handle_getdata_message_poisoned hash
      (show (PeerState.mk s.node tx).node.accountsPoisoned = true from dead)
    have handled : (handleMessage turn.order "getdata" (requestPayment hash).2).run ⟨s.node, tx, s.transactionsReceived⟩ =
        (.error e, ⟨s.node, tx, s.transactionsReceived⟩) := by
      rw [handle, Reach.onPeer, Proc.run_zoom, ran]
    have sent : tx = { tx with sent := tx.sent ++ [] } := by rw [List.append_nil]
    obtain ⟨turned, ends⟩ := step_turned here alive notAborted happens handled sent same rfl (List.append_nil _).symm
    refine ⟨turned, fun still => ?_⟩
    cases ends.mp still

theorem tx_turn (running : s.Running peer) {tx : Transaction} (valid : tx.WellFormed)
    (happens : turn.event = .message peer "tx" (deliverPayment tx).2) :
    s.Turned (s.step turn) peer [] [] (Account.announce tx tx.txOut) ∨
      s.Turned (s.step turn) peer [] [] id ∧ ¬(s.step turn).Running peer := by
  obtain ⟨notAborted, channel, here, alive⟩ := running
  have decoded : Transaction.unmarshalling tx.marshalling 0 = .ok (tx, tx.marshalling.length) := by
    have read := Transaction.unmarshalling_reads valid [] []
    rwa [List.nil_append, List.append_nil, List.length_nil, Nat.zero_add] at read
  have sent : channel = { channel with sent := channel.sent ++ [] } := by rw [List.append_nil]
  rcases ran : (handleTxMessage tx.marshalling).run s.node with ⟨result, node⟩
  have handled : (handleMessage turn.order "tx" (deliverPayment tx).2).run ⟨s.node, channel, s.transactionsReceived⟩ =
      (result, ⟨node, channel, s.transactionsReceived⟩) := by
    show (Reach.onNode (handleTxMessage tx.marshalling)).run _ = _
    rw [Reach.onNode, Proc.run_zoom, ran]
  rcases dead : s.wallet.accountsPoisoned with _ | _
  · have announced := handle_tx_message_accounts decoded (show s.node.accountsPoisoned = false from dead)
    rw [ran] at announced
    obtain rfl : node = _ := announced
    exact .inl (step_turned here alive notAborted happens handled sent rfl rfl (List.append_nil _).symm).1
  · have other : ((handleTxMessage tx.marshalling).run s.node).2 = s.node := handle_tx_message_other (.inl dead)
    have stuck : tx.txOut ≠ [] → ((handleTxMessage tx.marshalling).run s.node).1 ≠ .ok () := by
      intro some returned
      rw [handleTxMessage, decoded, Outcome.mapErr_ok, Proc.run_bind_ok _ (Proc.run_lift _ _)] at returned
      obtain ⟨out, rest, outputs⟩ := List.exists_cons_of_ne_nil some
      have refused : (out.involvesUserAccount tx).run s.node = (Outcome.fail poisoned, s.node) := if_pos dead
      have announced : (Proc.each tx.txOut fun txOut => txOut.involvesUserAccount tx).run s.node =
          (Outcome.fail poisoned, s.node) := by
        rw [outputs, Proc.each, Proc.run_bind_error _ refused]
        rfl
      cases (congrArg Prod.fst announced).symm.trans returned
    rw [ran] at other stuck
    obtain rfl : node = _ := other
    obtain ⟨turned, goesOn⟩ :=
      step_turned here alive notAborted happens handled sent (List.map_id _).symm rfl (List.append_nil _).symm
    by_cases none : tx.txOut = []
    · have nothing : Account.announce tx tx.txOut = id := by
        funext account
        rw [none, Account.announce_nil]
        rfl
      exact .inl (nothing ▸ turned)
    · exact .inr ⟨turned, fun still => stuck none (goesOn.mp still)⟩

/-- What a request leaves: a payment is announced to those of the nodes that were there at the start. -/
structure Asked (s s' : RunningNode) (payment : Option Transaction) : Prop where
  transactionsReceived : s'.transactionsReceived = s.transactionsReceived
  blockchain : s'.blockchain = s.blockchain
  connected : s'.wallet.nodesSender.length = s.wallet.nodesSender.length
  running : ∀ peer, s'.Running peer → s.Running peer
  paid : ∀ tx, payment = some tx →
    (∃ index account, s.wallet.accounts[index]? = some account ∧
      s'.wallet.accounts = s.wallet.accounts.set index (account.addTransaction tx)) ∧
    ∃ bytes, OnWire [announcePayment tx.hash] bytes ∧ ∀ peer,
      (s'.written peer = s.written peer ++ bytes ∨ s'.written peer = s.written peer) ∧
      (peer < s.wallet.nodesSender.length → s.Running peer → s'.written peer = s.written peer ++ bytes) ∧
      (s.wallet.nodesSender.length ≤ peer → s'.written peer = s.written peer)
  unpaid : payment = none → (∀ peer, s'.written peer = s.written peer) ∧
    ∃ added, s'.wallet.accounts = s.wallet.accounts ++ added ∧
      ∀ account ∈ added, account.Loaded s.blockchain.utxoSet

theorem Asked.refl (s : RunningNode) : s.Asked s none where
  transactionsReceived := rfl
  blockchain := rfl
  connected := rfl
  running _ := id
  paid tx pays := (Option.some_ne_none tx pays.symm).elim
  unpaid _ := ⟨fun _ => rfl, [], (List.append_nil _).symm, fun _ member => absurd member List.not_mem_nil⟩

omit [WalletCrates] in
theorem send_state (message : List UInt8) (tx : NodeSender) :
    ((NodeSender.send message).run tx).2 = { tx with sent := if tx.open_ then tx.sent ++ [message] else tx.sent } := by
  rw [NodeSender.send, Proc.run_bind_ok _ (Proc.run_get tx)]
  split_ifs <;> rfl

omit [WalletCrates] in
theorem peers_sent {s' : RunningNode} {message : List UInt8}
    (nodes : s'.wallet.nodesSender =
      s.wallet.nodesSender.map fun nodeSender => ((NodeSender.send message).run nodeSender).2)
    (incoming : s'.incoming = s.incoming) (peer : Nat) :
    s'.peers[peer]? = if peer < s.wallet.nodesSender.length then
      s.peers[peer]?.map fun nodeSender => ((NodeSender.send message).run nodeSender).2 else s.peers[peer]? := by
  have length : s'.wallet.nodesSender.length = s.wallet.nodesSender.length := by rw [nodes, List.length_map]
  rw [RunningNode.peers, RunningNode.peers]
  split_ifs with front
  · rw [List.getElem?_append_left (length ▸ front), List.getElem?_append_left front, nodes, List.getElem?_map]
  · have back := Nat.le_of_not_lt front
    rw [List.getElem?_append_right (length ▸ back), List.getElem?_append_right back, length, incoming]

omit [WalletCrates] in
theorem written_sent {s' : RunningNode} {message : List UInt8}
    (nodes : s'.wallet.nodesSender =
      s.wallet.nodesSender.map fun nodeSender => ((NodeSender.send message).run nodeSender).2)
    (incoming : s'.incoming = s.incoming) (peer : Nat) :
    (s'.written peer = s.written peer ++ message ∨ s'.written peer = s.written peer) ∧
      (peer < s.wallet.nodesSender.length → s.Running peer → s'.written peer = s.written peer ++ message) ∧
      (s.wallet.nodesSender.length ≤ peer → s'.written peer = s.written peer) := by
  have sent := peers_sent nodes incoming peer
  by_cases front : peer < s.wallet.nodesSender.length
  · rw [if_pos front] at sent
    have inside : peer < s.peers.length := by
      rw [RunningNode.peers, List.length_append]
      exact Nat.lt_add_right _ front
    have found := List.getElem?_eq_getElem inside
    rw [found, Option.map_some, send_state] at sent
    rw [written_of_some sent, written_of_some found]
    by_cases alive : s.peers[peer].open_ = true
    · have added : (if s.peers[peer].open_ = true then s.peers[peer].sent ++ [message] else s.peers[peer].sent).flatten =
          s.peers[peer].sent.flatten ++ message := by
        rw [if_pos alive, List.flatten_append, List.flatten_singleton]
      exact ⟨.inl added, fun _ _ => added, fun back => absurd front (Nat.not_lt_of_le back)⟩
    · refine ⟨.inr (by rw [if_neg alive]), fun _ running => ?_, fun back => absurd front (Nat.not_lt_of_le back)⟩
      obtain ⟨_, tx, found', open_⟩ := running
      exact absurd (Option.some.inj (found.symm.trans found') ▸ open_) alive
  · rw [if_neg front] at sent
    have same : s'.written peer = s.written peer := by rw [written, sent, written]
    exact ⟨.inr same, fun inside => absurd inside front, fun _ => same⟩

theorem Requested.asked {event : WalletEvent} {s' : RunningNode} (running : s.aborted = false)
    (requested : Requested event s s') : s.Asked s' (s.payment event) where
  transactionsReceived := requested.transactionsReceived
  blockchain := requested.blockchain
  connected := by
    rcases pays : s.payment event with _ | tx
    · rw [(requested.unpaid pays).1]
    · obtain ⟨_, _, _, _, _, _, _, sent⟩ := requested.paid tx pays
      rw [sent, List.length_map]
  running := by
    rintro peer ⟨_, tx', found', alive⟩
    refine ⟨running, ?_⟩
    rcases pays : s.payment event with _ | tx
    · rw [RunningNode.peers, (requested.unpaid pays).1, requested.incoming] at found'
      exact ⟨tx', found', alive⟩
    · obtain ⟨_, _, inv, _, _, _, _, sent⟩ := requested.paid tx pays
      rw [peers_sent sent requested.incoming] at found'
      split_ifs at found'
      · obtain ⟨tx, found, same⟩ := Option.map_eq_some_iff.mp found'
        rw [send_state] at same
        exact ⟨tx, found, (congrArg NodeSender.open_ same).trans alive⟩
      · exact ⟨tx', found', alive⟩
  paid := by
    intro tx pays
    obtain ⟨index, account, inv, _, stored, built, accounts, sent⟩ := requested.paid tx pays
    refine ⟨⟨index, account, stored, accounts⟩, inv, ⟨[inv], ?_, List.flatten_singleton⟩, fun peer =>
      written_sent sent requested.incoming peer⟩
    have framed : framed (announcePayment tx.hash) = .ok inv := built
    rw [List.mapM_cons, framed]
    rfl
  unpaid := by
    intro pays
    obtain ⟨sent, loaded⟩ := requested.unpaid pays
    refine ⟨fun peer => ?_, loaded⟩
    rw [written, written, RunningNode.peers, RunningNode.peers, sent, requested.incoming]

theorem request_turn {event : WalletEvent} (happens : turn.event = .request event) :
    s.Asked (s.step turn) (s.paymentOf turn) := by
  rw [step, paymentOf, happens]
  dsimp only
  by_cases aborted : s.aborted = true
  · rw [if_pos aborted, if_neg fun both => Bool.noConfusion (aborted.symm.trans both.2)]
    exact .refl s
  have running : s.aborted = false := Bool.eq_false_iff.mpr aborted
  rw [if_neg aborted, request]
  by_cases requests : s.requests = true
  · have requested := handle_ui_request_requested turn.visits event s
    rw [if_pos requests, if_pos ⟨requests, running⟩]
    rcases ran : (handleUiRequest turn.order event).run s with ⟨(e | _ | _) | _, s'⟩ <;> rw [ran] at requested
    · cases e
    · exact Requested.asked running { requested with }
    · exact Requested.asked running { requested with }
    · exact Requested.asked running requested
  · rw [if_neg requests, if_neg fun both => requests both.1]
    exact .refl s

theorem disconnect_turn {lost : Nat} (happens : turn.event = .disconnect lost) : s.Asked (s.step turn) none := by
  rw [step, happens]
  dsimp only
  split_ifs with aborted
  · exact .refl s
  have peers : (s.withPeers (s.peers.modify lost fun tx => { tx with open_ := false })).peers =
      s.peers.modify lost fun tx => { tx with open_ := false } := List.take_append_drop _ _
  have atPeer (peer : Nat) : (s.peers.modify lost fun tx => { tx with open_ := false })[peer]? =
      s.peers[peer]?.map fun tx => if lost = peer then { tx with open_ := false } else tx :=
    List.getElem?_modify ..
  refine ⟨rfl, rfl, ?_, ?_, fun tx pays => (Option.some_ne_none tx pays.symm).elim,
    fun _ => ⟨fun peer => ?_, ((Asked.refl s).unpaid rfl).2⟩⟩
  · refine List.length_take_of_le ?_
    rw [List.length_modify, RunningNode.peers, List.length_append]
    exact Nat.le_add_right _ _
  · rintro peer ⟨going, tx', found', alive⟩
    rw [peers, atPeer] at found'
    obtain ⟨tx, found, same⟩ := Option.map_eq_some_iff.mp found'
    refine ⟨going, tx, found, ?_⟩
    split_ifs at same with here
    · exact absurd alive (same ▸ Bool.false_ne_true)
    · exact same ▸ alive
  · rw [written, written, peers, atPeer]
    cases s.peers[peer]? with
    | none => rfl
    | some tx =>
      split_ifs <;> rfl

theorem real_of_loaded {utxoSet : UtxoSet} (real : RealSet utxoSet) {account : SpendingAccount}
    (loaded : account.Loaded utxoSet) : RealOutputs account.utxoSet := by
  have visits := HashMap.enumerates_visit utxoSet
  obtain ⟨utxos, read, same⟩ := loaded.current _ visits
  obtain ⟨_, rfl⟩ := (utxos_referenced_to_account_eq_ok visits).mp read
  have part : (holdings (((HashMap.visit utxoSet).map Prod.snd).filterMap (·.kept account.address))).Sublist
      (holdings ((HashMap.visit utxoSet).map Prod.snd)) := by
    rw [UtxoTuple.holdings_kept, holdings]
    generalize (HashMap.visit utxoSet).map Prod.snd = tuples
    induction tuples with
    | nil => exact .refl _
    | cons t tuples ih => exact .append (List.filter_sublist.map _) ih
  have all := (real _ visits).of_sublist part
  have moved : (holdings account.utxoSet).Perm
      (holdings (((HashMap.visit utxoSet).map Prod.snd).filterMap (·.kept account.address))) := same.flatMap_right _
  exact ⟨fun held member => all.txId held (moved.subset member), fun held member => all.index held (moved.subset member),
    moved.length_eq ▸ all.count⟩

section Accounts

variable {s' : RunningNode} {payment : Option Transaction}

omit [WalletCrates] in
theorem pending_set {accounts : List SpendingAccount} {index : Nat} {account : SpendingAccount}
    (stored : accounts[index]? = some account) (tx : Transaction) : ∃ front back,
      accounts.flatMap (·.pendingTransactions) = front ++ back ∧
      (accounts.set index (account.addTransaction tx)).flatMap (·.pendingTransactions) =
        front ++ tx :: back := by
  obtain ⟨bound, rfl⟩ := List.getElem?_eq_some_iff.mp stored
  refine ⟨(accounts.take index).flatMap (·.pendingTransactions) ++ accounts[index].pendingTransactions,
    (accounts.drop (index + 1)).flatMap (·.pendingTransactions), ?_, ?_⟩
  · nth_rewrite 1 [← List.take_append_drop index accounts]
    rw [List.drop_eq_getElem_cons bound, List.flatMap_append, List.flatMap_cons, List.append_assoc]
  · rw [List.set_eq_take_append_cons_drop, if_pos bound, List.flatMap_append, List.flatMap_cons]
    simp [SpendingAccount.addTransaction]

theorem Asked.pendingTransactions (asked : s.Asked s' payment) : ∃ front back,
    s.pendingTransactions = front ++ back ∧ s'.pendingTransactions = front ++ payment.toList ++ back := by
  rcases pays : payment with _ | tx
  · obtain ⟨_, added, all, loaded⟩ := asked.unpaid pays
    have idle : added.flatMap (·.pendingTransactions) = [] :=
      List.flatMap_eq_nil_iff.mpr fun account member => (loaded account member).pendingTransactions
    refine ⟨s.pendingTransactions, [], (List.append_nil _).symm, ?_⟩
    rw [Option.toList_none, List.append_nil, List.append_nil, RunningNode.pendingTransactions, all,
      List.flatMap_append, idle, List.append_nil, RunningNode.pendingTransactions]
  · obtain ⟨⟨index, account, stored, all⟩, _⟩ := asked.paid tx pays
    obtain ⟨front, back, before, after⟩ := pending_set stored tx
    refine ⟨front, back, before, ?_⟩
    rw [RunningNode.pendingTransactions, all, after, Option.toList_some, List.append_assoc, List.singleton_append]

theorem Asked.real (asked : s.Asked s' payment) (sets : RealSet s.blockchain.utxoSet)
    (real : ∀ account ∈ s.wallet.accounts, RealOutputs account.utxoSet) :
    ∀ account ∈ s'.wallet.accounts, RealOutputs account.utxoSet := by
  intro account member
  rcases pays : payment with _ | tx
  · obtain ⟨_, added, all, loaded⟩ := asked.unpaid pays
    rw [all] at member
    exact (List.mem_append.mp member).elim (real account) fun new => real_of_loaded sets (loaded account new)
  · obtain ⟨⟨index, payer, stored, all⟩, _⟩ := asked.paid tx pays
    rw [all] at member
    rcases List.mem_or_eq_of_mem_set member with old | rfl
    · exact real account old
    · exact real payer (List.mem_of_getElem? stored)

theorem Asked.accounts_length (asked : s.Asked s' payment) :
    s.wallet.accounts.length ≤ s'.wallet.accounts.length := by
  rcases pays : payment with _ | tx
  · obtain ⟨_, added, all, _⟩ := asked.unpaid pays
    rw [all, List.length_append]
    exact Nat.le_add_right _ _
  · obtain ⟨⟨index, payer, stored, all⟩, _⟩ := asked.paid tx pays
    rw [all, List.length_set]

theorem Asked.account_before (asked : s.Asked s' payment) {k : Nat} (early : k < s.wallet.accounts.length)
    {account : SpendingAccount} (stored : s'.wallet.accounts[k]? = some account) :
    ∃ before, s.wallet.accounts[k]? = some before ∧ account.address = before.address ∧
      before.pendingTransactions ⊆ account.pendingTransactions := by
  rcases pays : payment with _ | tx
  · obtain ⟨_, added, all, _⟩ := asked.unpaid pays
    rw [all, List.getElem?_append_left early] at stored
    exact ⟨account, stored, rfl, List.Subset.refl _⟩
  · obtain ⟨⟨index, payer, found, all⟩, _⟩ := asked.paid tx pays
    rw [all, List.getElem?_set] at stored
    split_ifs at stored with same bound
    · obtain rfl := Option.some.inj stored
      exact ⟨payer, same ▸ found, rfl, List.subset_append_left _ _⟩
    · exact ⟨account, stored, rfl, List.Subset.refl _⟩

end Accounts

theorem payment_wellFormed
    (memory : ∀ key hash signature, WalletCrates.sign key hash = .ok signature → signature.length < 2 ^ 63)
    (real : ∀ account ∈ s.wallet.accounts, RealOutputs account.utxoSet) {tx : Transaction}
    (pays : s.paymentOf turn = some tx) : tx.WellFormed := by
  rw [paymentOf] at pays
  split at pays
  · next event _ =>
    split_ifs at pays
    unfold payment at pays
    split at pays
    · next _ address amount fee _ =>
      rw [PaymentWallet.payment] at pays
      split_ifs at pays
      split at pays
      · next account checked inUse =>
        obtain ⟨index, _, stored⟩ := Option.bind_eq_some_iff.mp inUse
        rcases signed : account.signedTransaction address amount fee with e | tx' <;> rw [signed] at pays
        · cases pays
        · obtain rfl := Option.some.inj pays
          exact account.signed_transaction_wellFormed memory (real account (List.mem_of_getElem? stored))
            (validate_transaction_data_positive checked) signed
      · cases pays
    · cases pays
  · cases pays

end Turns

end RunningNode

end BitcoinNode
