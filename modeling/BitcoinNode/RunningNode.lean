import BitcoinNode.AccountViews
import BitcoinNode.Announcements
import BitcoinNode.FailedPayments
import BitcoinNode.GetheadersReplies
import BitcoinNode.PendingLists
import BitcoinNode.TransactionLists
import BitcoinNode.Wallet

/-! The node once it is set up: a thread for each peer, one that takes in connections, and the one of the
wallet, which answers the user interface. They take turns, a whole message or request at a time; what
happens where two of them overlap is in other modules. -/
namespace BitcoinNode

/-- What a request of the user interface makes the wallet show. -/
inductive UIEvent where
  | AccountAddedSuccesfully (account : SpendingAccount)
  | AddAccountError (err : String)
  | AccountChanged (account : SpendingAccount)
  | ChangeAccountError (err : String)
  | MakeTransactionStatus (status : String)
  | NewPendingTx
  | UpdateTransactions (transactions : List (String × Transaction × Int64))
  | BlockFound (block : Block)
  | HeaderFound (header : BlockHeader) (height : Nat)
  | POIResult (message : String)
  | NotFound

inductive WalletEvent where
  | Start
  | AddAccountRequest (wifPrivateKey address : String)
  | MakeTransaction (address : String) (amount fee : Int64)
  | PoiOfTransactionRequest (blockHash transactionHash : String)
  | Finish
  | ChangeAccount (accountIndex : Nat)
  | GetAccountRequest
  | GetTransactionsRequest
  | SearchBlock (blockHash : Hash)
  | SearchHeader (blockHash : Hash)

namespace PaymentWallet

/-- A transaction of the account at this position is added to it, and announced by this message. -/
def paid (wallet : PaymentWallet) (index : Nat) (account : SpendingAccount) (tx : Transaction) (inv : List UInt8) :
    PaymentWallet :=
  { wallet with
    accounts := wallet.accounts.set index (account.addTransaction tx)
    nodesSender := wallet.nodesSender.map fun nodeSender => ((NodeSender.send inv).run nodeSender).2 }

variable [WalletCrates]

/-- What the account in use signs, if nothing is in the way. -/
def payment (wallet : PaymentWallet) (addressReceiver : String) (amount fee : Int64) : Option Transaction :=
  if wallet.accountsPoisoned then none
  else
    match validateTransactionData amount fee, wallet.currentAccountIndex.bind (wallet.accounts[·]?) with
    | .ok (), some account => (account.signedTransaction addressReceiver amount fee).toOption
    | _, _ => none

/-- A payment is signed, added and announced, or nothing but a panic is left of it. -/
theorem make_transaction_cases (wallet : PaymentWallet) (addressReceiver : String) (amount fee : Int64) :
    (∃ index account tx inv, wallet.payment addressReceiver amount fee = some tx ∧
      wallet.accountsPoisoned = false ∧ wallet.currentAccountIndex = some index ∧
      wallet.accounts[index]? = some account ∧ validateTransactionData amount fee = .ok () ∧
      account.signedTransaction addressReceiver amount fee = .ok tx ∧
      invMershalling [.newTx tx.hash] = .ok inv ∧
      (makeTransaction addressReceiver amount fee).run wallet =
        (if wallet.nodesSender.any NodeSender.open_ then .ok ()
          else Outcome.fail (NodeCustomErrors.ThreadChannelError "All nodes failed").fmt,
          wallet.paid index account tx inv)) ∨
    wallet.payment addressReceiver amount fee = none ∧ ∃ e dead, (wallet.accountsPoisoned = true → dead = true) ∧
      (makeTransaction addressReceiver amount fee).run wallet =
        (.error e, { wallet with accountsPoisoned := dead }) := by
  obtain ⟨inUse, accounts, dead, nodesSender⟩ := wallet
  rw [makeTransaction, Proc.run_bind_ok _ (Proc.run_get _), payment]
  rcases inUse with _ | index
  · refine .inr ⟨?_, _, dead, id, rfl⟩
    cases dead <;> cases validateTransactionData amount fee <;> rfl
  rcases checked : validateTransactionData amount fee with e | _
  · refine .inr ⟨?_, e, dead, id, rfl⟩
    cases dead <;> rfl
  simp only [Proc.run_bind_ok _ (Proc.run_lift _ _)]
  cases dead with
  | true => exact .inr ⟨rfl, _, true, id, rfl⟩
  | false =>
    rcases stored : accounts[index]? with _ | account
    · have outside : (accountTransaction index addressReceiver amount fee).run
          ⟨some index, accounts, false, nodesSender⟩ = (Outcome.panic, ⟨some index, accounts, true, nodesSender⟩) := by
        simp only [accountTransaction, Bool.false_eq_true, if_false, stored]
      rw [Proc.run_bind_error _ outside]
      exact .inr ⟨by simp [stored], _, true, fun _ => rfl, rfl⟩
    rcases signed : account.signedTransaction addressReceiver amount fee with e | tx
    · have made : (SpendingAccount.makeTransaction addressReceiver amount fee).run account =
          (.error e, account) := by
        rw [SpendingAccount.makeTransaction, Proc.run_bind_ok _ (Proc.run_get account), signed]
        rfl
      have refused : ∃ e dead, (accountTransaction index addressReceiver amount fee).run
          ⟨some index, accounts, false, nodesSender⟩ = (.error e, ⟨some index, accounts, dead, nodesSender⟩) := by
        simp only [accountTransaction, Bool.false_eq_true, if_false, stored, made]
        cases e <;> exact ⟨_, _, rfl⟩
      obtain ⟨e, dead, refused⟩ := refused
      rw [Proc.run_bind_error _ refused]
      exact .inr ⟨by simp [stored, signed, Except.toOption], e, dead, fun poisoned => Bool.noConfusion poisoned, rfl⟩
    · have made : (SpendingAccount.makeTransaction addressReceiver amount fee).run account =
          (.ok tx, account.addTransaction tx) := by
        rw [SpendingAccount.makeTransaction, Proc.run_bind_ok _ (Proc.run_get account), signed]
        rfl
      have paying : (accountTransaction index addressReceiver amount fee).run
          ⟨some index, accounts, false, nodesSender⟩ =
            (.ok tx, ⟨some index, accounts.set index (account.addTransaction tx), false, nodesSender⟩) := by
        simp only [accountTransaction, Bool.false_eq_true, if_false, stored, made]
      obtain ⟨inv, built⟩ := inv_mershalling_ok [.newTx tx.hash]
      have sent : (broadcastTx tx.hash).run nodesSender =
          (if nodesSender.any NodeSender.open_ then .ok () else Outcome.fail (.ThreadChannelError "All nodes failed"),
            nodesSender.map fun nodeSender => ((NodeSender.send inv).run nodeSender).2) := by
        rw [broadcastTx, built, Outcome.widen_ok, Proc.run_bind_ok _ (Proc.run_lift _ _)]
        rfl
      refine .inl ⟨index, account, tx, inv, by simp [stored, signed, Except.toOption], rfl, rfl, stored, trivial, signed,
        built, ?_⟩
      rw [Proc.run_bind_ok _ paying]
      simp only [sent]
      split_ifs <;> rfl

end PaymentWallet

/-- What the thread of one peer can reach. -/
structure Reach where
  node : NodeDataPointers
  tx : NodeSender
  transactionsReceived : List Hash

namespace Reach

def onPeer (m : Proc PeerState NodeCustomErrors α) : Proc Reach NodeCustomErrors α :=
  Proc.zoom (fun s => ⟨s.node, s.tx⟩) (fun t s => { s with node := t.node, tx := t.tx }) m

def onNode (m : Handler α) : Proc Reach NodeCustomErrors α :=
  Proc.zoom Reach.node (fun node s => { s with node }) m

def onInv (m : Proc InvState NodeCustomErrors α) : Proc Reach NodeCustomErrors α :=
  Proc.zoom (fun s => ⟨s.transactionsReceived, s.tx⟩)
    (fun t s => { s with transactionsReceived := t.transactionsReceived, tx := t.tx }) m

def onTx (m : Proc NodeSender NodeCustomErrors α) : Proc Reach NodeCustomErrors α :=
  Proc.zoom Reach.tx (fun tx s => { s with tx }) m

end Reach

section Messages

variable [WalletCrates]

def handlePingMessage (payload : List UInt8) : Proc NodeSender NodeCustomErrors Unit := do
  let headerBytes ← Proc.lift (HeaderMessage.toLeBytes
    ⟨startString, "pong", UInt32.ofNat payload.length, getChecksum payload⟩).widen
  NodeSender.send (headerBytes ++ payload)

/-- The `match` on the name of the command. Any other message is ignored. -/
def handleMessage (order : UtxoSet → List (Hash × UtxoTuple)) (commandName : String) (payload : List UInt8) :
    Proc Reach NodeCustomErrors Unit :=
  match commandName with
  | "headers" => Reach.onPeer (handleHeadersMessage payload)
  | "getdata" => Reach.onPeer (handleGetdataMessage payload)
  | "block" => Reach.onNode (handleBlockMessage payload order)
  | "inv" => Reach.onInv (handleInvMessage payload)
  | "ping" => Reach.onTx (handlePingMessage payload)
  | "tx" => Reach.onNode (handleTxMessage payload)
  | "getheaders" => Reach.onPeer (handleGetheadersMessage payload)
  | _ => pure ()

end Messages

/-- The wallet holds a copy of the list of channels that is made before the server starts: the connections
that come in later are not in it. `requests` tells whether its thread still takes requests, and `aborted`
whether the process is gone. -/
structure RunningNode where
  blockchain : Blockchain
  wallet : PaymentWallet
  incoming : List NodeSender
  transactionsReceived : List Hash
  uiEvents : List UIEvent
  requests : Bool
  aborted : Bool

inductive NodeEvent where
  | message (peer : Nat) (commandName : String) (payload : List UInt8)
  | disconnect (peer : Nat)
  | addConnection
  | request (event : WalletEvent)

/-- Whose turn it is, and in what order the utxo set is visited then. -/
structure NodeTurn where
  event : NodeEvent
  order : UtxoSet → List (Hash × UtxoTuple)
  visits : ∀ utxoSet, HashMap.Enumerates utxoSet (order utxoSet)

namespace RunningNode

/-- `Node::new` and `Wallet::new`, with as many nodes as the handshake connected to. -/
def new (blockchain : Blockchain) (connectedNodes : Nat) : RunningNode where
  blockchain := blockchain
  wallet := ⟨none, [], false, List.replicate connectedNodes ⟨true, []⟩⟩
  incoming := []
  transactionsReceived := []
  uiEvents := []
  requests := true
  aborted := false

def peers (s : RunningNode) : List NodeSender := s.wallet.nodesSender ++ s.incoming

def withPeers (s : RunningNode) (peers : List NodeSender) : RunningNode :=
  { s with
    wallet := { s.wallet with nodesSender := peers.take s.wallet.nodesSender.length }
    incoming := peers.drop s.wallet.nodesSender.length }

/-- What the handlers of messages share with the wallet. -/
def node (s : RunningNode) : NodeDataPointers :=
  ⟨s.blockchain, s.wallet.accounts.map (·.toAccount), s.wallet.accountsPoisoned⟩

def withNode (s : RunningNode) (node : NodeDataPointers) : RunningNode :=
  { s with
    blockchain := node.blockchain
    wallet := { s.wallet with
      accounts := List.zipWith (fun spending account => { spending with toAccount := account })
        s.wallet.accounts node.accounts
      accountsPoisoned := node.accountsPoisoned } }

def withReach (s : RunningNode) (peer : Nat) (reach : Reach) : RunningNode :=
  { (s.withNode reach.node).withPeers (s.peers.set peer reach.tx) with
    transactionsReceived := reach.transactionsReceived }

def sendEventToUi (event : UIEvent) : Proc RunningNode ε Unit :=
  Proc.modify fun s => { s with uiEvents := s.uiEvents ++ [event] }

section Requests

variable [WalletCrates] (order : UtxoSet → List (Hash × UtxoTuple))

def loadData (account : SpendingAccount) : Proc RunningNode NodeCustomErrors SpendingAccount := do
  let s ← Proc.get
  let utxosToAccount ← Proc.lift
    (utxosReferencedToAccount (order s.blockchain.utxoSet) account.address).widen
  return { account with toAccount := account.loadUtxos utxosToAccount }

def pushAccount (account : SpendingAccount) : Proc RunningNode NodeCustomErrors Unit := do
  let s ← Proc.get
  if s.wallet.accountsPoisoned then Proc.lift (Outcome.fail poisoned)
  else Proc.modify fun s => { s with wallet := { s.wallet with accounts := s.wallet.accounts ++ [account] } }

def addAccount (wifPrivateKey address : String) : Proc RunningNode NodeCustomErrors Unit := do
  match ← Proc.attempt (Proc.lift (SpendingAccount.new wifPrivateKey address)) with
  | .error err => do
    sendEventToUi (.AddAccountError err)
    Proc.lift (Outcome.fail (.UnmarshallingError err))
  | .ok account => do
    let account ← loadData order account
    pushAccount account
    sendEventToUi (.AccountAddedSuccesfully account)

def handleAddAccount (wifPrivateKey address : String) : Proc RunningNode Empty Unit := do
  match ← Proc.attempt (addAccount order wifPrivateKey address) with
  | .error (.LockError err) => sendEventToUi (.AddAccountError err)
  | _ => pure ()

/-- `self.accounts.read()?[index].clone()` -/
def readAccount (index : Nat) : Proc RunningNode NodeCustomErrors SpendingAccount := do
  let s ← Proc.get
  if s.wallet.accountsPoisoned then Proc.lift (Outcome.fail poisoned)
  else Proc.lift (Outcome.index s.wallet.accounts index)

/-- The two locks are taken one after the other. -/
def changeAccount (indexOfNewAccount : Nat) : Proc RunningNode String Unit := do
  let s ← Proc.get
  if s.wallet.accountsPoisoned then Proc.lift (Outcome.fail poisoned.fmt)
  else if s.wallet.accounts.length ≤ indexOfNewAccount then
    Proc.lift (Outcome.fail "Error trying to change account. Index out of bounds")
  else do
    Proc.modify fun s => { s with wallet := { s.wallet with currentAccountIndex := some indexOfNewAccount } }
    let new_account ← (readAccount indexOfNewAccount).mapErr NodeCustomErrors.fmt
    sendEventToUi (.AccountChanged new_account)

def handleChangeAccount (accountIndex : Nat) : Proc RunningNode Empty Unit := do
  match ← Proc.attempt (changeAccount accountIndex) with
  | .error err => sendEventToUi (.ChangeAccountError err)
  | .ok () => pure ()

def getCurrentAccount : Proc RunningNode Empty (Option SpendingAccount) := do
  let s ← Proc.get
  match s.wallet.currentAccountIndex with
  | some index => do
    let account ← (readAccount index).unwrap
    return some account
  | none => return none

def handleGetAccount : Proc RunningNode Empty Unit := do
  match ← getCurrentAccount with
  | some account => sendEventToUi (.AccountChanged account)
  | none => pure ()

def makeTransaction (address : String) (amount fee : Int64) : Proc RunningNode String Unit := do
  Proc.zoom RunningNode.wallet (fun wallet s => { s with wallet })
    (PaymentWallet.makeTransaction address amount fee)
  sendEventToUi .NewPendingTx

def handleMakeTransaction (address : String) (amount fee : Int64) : Proc RunningNode Empty Unit := do
  match ← Proc.attempt (makeTransaction address amount fee) with
  | .error err => sendEventToUi (.MakeTransactionStatus err)
  | .ok () => sendEventToUi (.MakeTransactionStatus "The transaction was made succesfuly!")

def handlePoi (blockHash transactionHash : String) : Proc RunningNode Empty Unit := do
  let s ← Proc.get
  let poi ← Proc.lift (Outcome.attempt
    (Wallet.txProofOfInclusion ⟨⟨s.blockchain⟩⟩ blockHash transactionHash))
  sendEventToUi (.POIResult (match poi with
    | .error _ => "Block not found"
    | .ok true => s!"The transaction {transactionHash} was found on block {blockHash}"
    | .ok false => s!"The transaction {transactionHash} was not found on block {blockHash}"))

def handleSearchBlock (blockHash : Hash) : Proc RunningNode Empty Unit := do
  let s ← Proc.get
  match s.blockchain.searchBlock blockHash with
  | some block => sendEventToUi (.BlockFound block)
  | none => sendEventToUi .NotFound

def handleSearchHeader (blockHash : Hash) : Proc RunningNode Empty Unit := do
  let s ← Proc.get
  match s.blockchain.searchHeader blockHash with
  | some (header, height) => sendEventToUi (.HeaderFound header height)
  | none => sendEventToUi .NotFound

def getTransactions : Proc RunningNode Empty (Option (List (String × Transaction × Int64))) := do
  let s ← Proc.get
  match s.wallet.currentAccountIndex with
  | some index => do
    let account ← (readAccount index).unwrap
    let transactions ← Proc.lift (Outcome.attempt account.getTransactions)
    return transactions.toOption
  | none => return none

def handleGetTransactions : Proc RunningNode Empty Unit := do
  match ← getTransactions with
  | some transactions => sendEventToUi (.UpdateTransactions transactions)
  | none => pure ()

/-- One turn of the loop; `Finish` ends it. -/
def handleUiRequest (order : UtxoSet → List (Hash × UtxoTuple)) : WalletEvent → Proc RunningNode Empty Unit
  | .AddAccountRequest wif address => handleAddAccount order wif address
  | .ChangeAccount accountIndex => handleChangeAccount accountIndex
  | .GetAccountRequest => handleGetAccount
  | .MakeTransaction address amount fee => handleMakeTransaction address amount fee
  | .PoiOfTransactionRequest blockHash transactionHash => handlePoi blockHash transactionHash
  | .SearchBlock blockHash => handleSearchBlock blockHash
  | .SearchHeader blockHash => handleSearchHeader blockHash
  | .GetTransactionsRequest => handleGetTransactions
  | .Finish => Proc.modify fun s => { s with requests := false }
  | .Start => pure ()

/-- A message arrives. An error or a panic ends the thread of the peer, and with it the channel. -/
def message (s : RunningNode) (peer : Nat) (commandName : String) (payload : List UInt8) : RunningNode :=
  match s.peers[peer]? with
  | none => s
  | some tx =>
    if tx.open_ then
      let ran := (handleMessage order commandName payload).run ⟨s.node, tx, s.transactionsReceived⟩
      match ran.1 with
      | .ok () => s.withReach peer ran.2
      | .error .abort => { s.withReach peer ran.2 with aborted := true }
      | .error _ => s.withReach peer { ran.2 with tx := { ran.2.tx with open_ := false } }
    else s

/-- A panic ends the thread of the wallet. -/
def request (s : RunningNode) (event : WalletEvent) : RunningNode :=
  if s.requests then
    let ran := (handleUiRequest order event).run s
    match ran.1 with
    | .ok () => ran.2
    | .error .panic => { ran.2 with requests := false }
    | .error .abort => { ran.2 with aborted := true }
  else s

end Requests

def step [WalletCrates] (s : RunningNode) (turn : NodeTurn) : RunningNode :=
  if s.aborted then s
  else
    match turn.event with
    | .message peer commandName payload => s.message turn.order peer commandName payload
    | .disconnect peer => s.withPeers (s.peers.modify peer fun tx => { tx with open_ := false })
    | .addConnection => { s with incoming := s.incoming ++ [⟨true, []⟩] }
    | .request event => s.request turn.order event

end RunningNode

end BitcoinNode
