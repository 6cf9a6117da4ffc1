import BitcoinNode.Handlers
import BitcoinNode.Lib.Threads

/-! The handler of block messages as a thread. Every lock is one step from its acquisition to its
release, with the locks taken inside it; what needs no lock is part of the step before it. -/
namespace BitcoinNode

@[simp] theorem NodeDataPointers.on_blockchain_id (s : NodeDataPointers) :
    s.onBlockchain (fun chain => chain) = s := rfl

/-- What a peer thread does under one lock. -/
inductive Access where
  | headerIsNotIncluded (header : BlockHeader)
  | pushHeader (header : BlockHeader)
  | insertHeight (header : BlockHeader)
  | containsKey (txId : Hash)
  | removeUtxo (txId : Hash) (outputIndex : Nat)
  | loadUtxos (tx : Transaction)
  | updateAccountsUtxoSet
  | containsPendingTx (tx : Transaction)
  | includeNewBlock (block : Block)

section Threads

variable [Crates]

/-- An access to the chain; those to the accounts leave it alone. -/
def Access.onChain (access : Access) (chain : Blockchain) : Bool × Blockchain :=
  match access with
  | headerIsNotIncluded header => (BitcoinNode.headerIsNotIncluded header chain.headers, chain)
  | pushHeader header => (true, { chain with headers := chain.headers ++ [header] })
  | insertHeight header =>
    -- the length is read under the lock of the heights, from headers that may have grown
    (true, { chain with
      headerHeights := chain.headerHeights.insert header.hash (chain.headers.length - 1) })
  | containsKey txId => ((chain.utxoSet.get txId).isSome, chain)
  | removeUtxo txId outputIndex =>
    (true, { chain with utxoSet := chain.utxoSet.modify txId (·.removeUtxo outputIndex) })
  | loadUtxos tx => (true, { chain with utxoSet := tx.loadUtxos chain.utxoSet })
  | updateAccountsUtxoSet | containsPendingTx _ => (true, chain)
  | includeNewBlock block => (true, BitcoinNode.includeNewBlock block chain)

def Access.act (order : UtxoSet → List (Hash × UtxoTuple)) (access : Access) (s : NodeDataPointers) :
    Outcome NodeCustomErrors Bool × NodeDataPointers :=
  match access with
  | updateAccountsUtxoSet =>
    (((BitcoinNode.updateAccountsUtxoSet order).run s).1.map fun _ => true,
      ((BitcoinNode.updateAccountsUtxoSet order).run s).2)
  | containsPendingTx tx =>
    if s.accountsPoisoned then (Outcome.fail poisoned, s)
    else (.ok true, { s with accounts := s.accounts.map (Account.confirm tx) })
  | access => (.ok (access.onChain s.blockchain).1, s.onBlockchain fun chain => (access.onChain chain).2)

abbrev PeerThread := Thread Access (Outcome NodeCustomErrors Bool) (Outcome NodeCustomErrors Unit)

namespace PeerThread

/-- An error or a panic ends the thread. -/
def perform (access : Access) (next : Bool → PeerThread) : PeerThread :=
  .call access fun answer => match answer with
    | .ok answer => next answer
    | .error e => .done (.error e)

def removeUtxos (txIn : List TxIn) (next : PeerThread) : PeerThread :=
  match txIn with
  | [] => next
  | txin :: rest =>
    perform (.containsKey txin.getPreviousOutputHash) fun held =>
      if held then
        perform (.removeUtxo txin.getPreviousOutputHash txin.getPreviousOutputIndex) fun _ =>
          removeUtxos rest next
      else removeUtxos rest next

def giveMeUtxos (txn : List Transaction) (next : PeerThread) : PeerThread :=
  match txn with
  | [] => next
  | tx :: rest =>
    match tx.isCoinbaseTransaction with
    | .error e => .done (.error e.widen)
    | .ok true => perform (.loadUtxos tx) fun _ => giveMeUtxos rest next
    | .ok false => removeUtxos tx.txIn (perform (.loadUtxos tx) fun _ => giveMeUtxos rest next)

def containsPendingTx (txn : List Transaction) (next : PeerThread) : PeerThread :=
  match txn with
  | [] => next
  | tx :: rest => perform (.containsPendingTx tx) fun _ => containsPendingTx rest next

/-- What follows `includeNewHeader`. -/
def settleNewBlock (newBlock : Block) : PeerThread :=
  giveMeUtxos newBlock.txn <| perform .updateAccountsUtxoSet fun _ =>
    containsPendingTx newBlock.txn <| perform (.includeNewBlock newBlock) fun _ => .done (.ok ())

def applyNewBlock (newBlock : Block) : PeerThread :=
  perform (.pushHeader newBlock.blockHeader) fun _ =>
    perform (.insertHeight newBlock.blockHeader) fun _ => settleNewBlock newBlock

def handleBlock (newBlock : Block) : PeerThread :=
  perform (.headerIsNotIncluded newBlock.blockHeader) fun unknown =>
    if unknown then applyNewBlock newBlock else .done (.ok ())

def handleBlockMessage (payload : List UInt8) : PeerThread :=
  match Outcome.mapErr NodeCustomErrors.UnmarshallingError (BlockMessage.unmarshalling payload) with
  | .error e => .done (.error e)
  | .ok newBlock =>
    match newBlock.validate.widen with
    | .error e => .done (.error e)
    | .ok (false, _) => .done (.ok ())
    | .ok (true, _) => handleBlock newBlock

variable {order : UtxoSet → List (Hash × UtxoTuple)} {next : PeerThread}

theorem run_perform (access : Access) (rest : Bool → PeerThread) (s : NodeDataPointers) :
    (perform access rest).run (Access.act order) s = match access.act order s with
      | (.ok answer, s') => (rest answer).run (Access.act order) s'
      | (.error e, s') => (.error e, s') := by
  rw [perform, Thread.run]
  rcases access.act order s with ⟨e | answer, s'⟩ <;> rfl

theorem run_remove_utxos (txIn : List TxIn) (s : NodeDataPointers) :
    (removeUtxos txIn next).run (Access.act order) s =
      next.run (Access.act order) (s.onBlockchain fun chain => { chain with
        utxoSet := txIn.foldl (fun utxoSet txin => utxoSet.modify txin.getPreviousOutputHash
          (·.removeUtxo txin.getPreviousOutputIndex)) chain.utxoSet }) := by
  induction txIn generalizing s with
  | nil => rfl
  | cons txin rest ih =>
    rw [removeUtxos, run_perform]
    cases held : s.blockchain.utxoSet.get txin.getPreviousOutputHash with
    | none =>
      have skipped : s.blockchain.utxoSet.modify txin.getPreviousOutputHash
          (·.removeUtxo txin.getPreviousOutputIndex) = s.blockchain.utxoSet := by
        rw [HashMap.modify, held]
      simp only [Access.act, Access.onChain, held, Option.isSome_none, Bool.false_eq_true, if_false, List.foldl_cons]
      rw [ih]
      simp only [NodeDataPointers.onBlockchain, skipped]
    | some tuple =>
      simp only [Access.act, Access.onChain, held, Option.isSome_some, if_true, List.foldl_cons]
      rw [run_perform]
      exact ih _

theorem run_give_me_utxos {rest : Handler Unit}
    (goesOn : ∀ s, next.run (Access.act order) s = rest.run s) (b : Block) (s : NodeDataPointers) :
    (giveMeUtxos b.txn next).run (Access.act order) s = (do
      Proc.zoom (·.blockchain.utxoSet) (fun utxoSet s => s.onBlockchain ({ · with utxoSet }))
        b.giveMeUtxos.widen
      rest : Handler Unit).run s := by
  rw [Block.giveMeUtxos]
  induction b.txn generalizing s with
  | nil => exact goesOn s
  | cons tx txn ih =>
    rw [giveMeUtxos]
    rcases asked : tx.isCoinbaseTransaction with e | _ | _
    · simp [Proc.each, Proc.run_bind, asked, NodeDataPointers.onBlockchain, Thread.run]
    · have loaded := ih (s.onBlockchain fun chain =>
        { chain with utxoSet := tx.loadUtxos (tx.removeUtxos chain.utxoSet) })
      simp only
      rw [run_remove_utxos, run_perform]
      simpa [Proc.each, Proc.run_bind, asked, NodeDataPointers.onBlockchain, Access.act, Access.onChain,
        Transaction.removeUtxos] using loaded
    · have loaded := ih (s.onBlockchain fun chain =>
        { chain with utxoSet := tx.loadUtxos chain.utxoSet })
      simp only
      rw [run_perform]
      simpa [Proc.each, Proc.run_bind, asked, NodeDataPointers.onBlockchain, Access.act,
        Access.onChain] using loaded

theorem run_contains_pending_tx {rest : Handler Unit}
    (goesOn : ∀ s, next.run (Access.act order) s = rest.run s) (b : Block) (s : NodeDataPointers) :
    (containsPendingTx b.txn next).run (Access.act order) s = (do
      b.containsPendingTx
      rest : Handler Unit).run s := by
  rw [Block.containsPendingTx]
  induction b.txn generalizing s with
  | nil => exact goesOn s
  | cons tx txn ih =>
    rw [containsPendingTx, run_perform]
    by_cases dead : s.accountsPoisoned
    · simp [Proc.each, Proc.run_bind, Access.act, dead, Outcome.fail]
    · have confirmed := ih { s with accounts := s.accounts.map (Account.confirm tx) }
      simpa [Proc.each, Proc.run_bind, Access.act, Access.onChain, dead] using confirmed

theorem run_apply_new_block (b : Block) (s : NodeDataPointers) :
    (applyNewBlock b).run (Access.act order) s = (BitcoinNode.applyNewBlock b order).run s := by
  have included (s : NodeDataPointers) :
      (perform (.includeNewBlock b) fun _ => .done (.ok ())).run (Access.act order) s =
        (Proc.modify (·.onBlockchain (includeNewBlock b)) : Handler Unit).run s := rfl
  have visited (s : NodeDataPointers) :
      (perform .updateAccountsUtxoSet fun _ => containsPendingTx b.txn <|
        perform (.includeNewBlock b) fun _ => .done (.ok ())).run (Access.act order) s = (do
          updateAccountsUtxoSet order
          b.containsPendingTx
          Proc.modify (·.onBlockchain (includeNewBlock b)) : Handler Unit).run s := by
    rw [run_perform, Proc.run_bind, Access.act]
    rcases (updateAccountsUtxoSet order).run s with ⟨e | _, s'⟩
    · rfl
    · exact run_contains_pending_tx included b s'
  rw [applyNewBlock, run_perform]
  simp only [Access.act, Access.onChain]
  rw [run_perform]
  simp only [Access.act, Access.onChain]
  rw [settleNewBlock, run_give_me_utxos visited]
  rfl

theorem handle_block_message_accepted {payload : List UInt8} {b : Block}
    (accepted : AcceptedBlock payload b) : handleBlockMessage payload = handleBlock b := by
  obtain ⟨decoded, text, validated⟩ := accepted
  simp only [handleBlockMessage, decoded, validated, Outcome.mapErr_ok, Outcome.widen_ok]

theorem run_handle_block_message (payload : List UInt8) (s : NodeDataPointers) :
    (handleBlockMessage payload).run (Access.act order) s =
      (BitcoinNode.handleBlockMessage payload order).run s := by
  rw [handleBlockMessage, BitcoinNode.handleBlockMessage, Proc.run_bind, Proc.run_lift]
  rcases Outcome.mapErr NodeCustomErrors.UnmarshallingError (BlockMessage.unmarshalling payload) with e | b
  · rfl
  simp only
  rw [Proc.run_bind, Proc.run_lift]
  rcases (b.validate.widen : Outcome NodeCustomErrors (Bool × String)) with e | ⟨_ | _, text⟩
  · rfl
  · rfl
  simp only [if_true]
  rw [handleBlock, run_perform]
  cases unknown : headerIsNotIncluded b.blockHeader s.blockchain.headers with
  | false => simp [Access.act, Access.onChain, unknown, Proc.run_bind, Thread.run]
  | true => simp [Access.act, Access.onChain, unknown, Proc.run_bind, run_apply_new_block]

end PeerThread

end Threads

end BitcoinNode
