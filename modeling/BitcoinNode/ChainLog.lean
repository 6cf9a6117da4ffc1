import BitcoinNode.RunningNode

/-! The chain of a running node as a log of accepted blocks. Whatever messages arrive from whichever peers
and whatever the wallet is asked for, headers, unspent outputs and blocks are what the log makes of those
at the start. -/
namespace BitcoinNode

def Account.SameOutputs (account account' : Account) : Prop :=
  account'.address = account.address ∧ account'.utxoSet = account.utxoSet

theorem Account.SameOutputs.refl (account : Account) : account.SameOutputs account := ⟨rfl, rfl⟩

theorem Account.SameOutputs.trans {account account' account'' : Account} (first : account.SameOutputs account')
    (second : account'.SameOutputs account'') : account.SameOutputs account'' :=
  ⟨second.1.trans first.1, second.2.trans first.2⟩

theorem Account.Current.same [Crates] {account account' : Account} {utxoSet : UtxoSet}
    (current : account.Current utxoSet) (same : account.SameOutputs account') : account'.Current utxoSet := by
  intro visit visits
  rw [same.1, same.2]
  exact current visit visits

/-- Only heights, pending and confirmed transactions may differ. -/
structure NodeDataPointers.SameLog (s s' : NodeDataPointers) : Prop where
  headers : s'.blockchain.headers = s.blockchain.headers
  utxoSet : s'.blockchain.utxoSet = s.blockchain.utxoSet
  blocks : s'.blockchain.blocks = s.blockchain.blocks
  poisoned : s'.accountsPoisoned = s.accountsPoisoned
  accounts : List.Forall₂ Account.SameOutputs s.accounts s'.accounts

theorem NodeDataPointers.SameLog.refl (s : NodeDataPointers) : s.SameLog s :=
  ⟨rfl, rfl, rfl, rfl, List.forall₂_same.mpr fun account _ => Account.SameOutputs.refl account⟩

theorem NodeDataPointers.SameLog.addresses {s s' : NodeDataPointers} (same : s.SameLog s') :
    s'.accounts.map Account.address = s.accounts.map Account.address := by
  have outputs := same.accounts
  generalize s.accounts = before, s'.accounts = after at outputs
  induction outputs with
  | nil => rfl
  | cons first _ ih => rw [List.map_cons, List.map_cons, first.1, ih]

theorem NodeDataPointers.SameLog.of_eq {s s' : NodeDataPointers} (same : s' = s) : s.SameLog s' :=
  same ▸ .refl s

theorem NodeDataPointers.SameLog.of_map {s : NodeDataPointers} {f : Account → Account}
    (same : ∀ account : Account, account.SameOutputs (f account)) : s.SameLog { s with accounts := s.accounts.map f } :=
  ⟨rfl, rfl, rfl, rfl, List.forall₂_map_right_iff.mpr (List.forall₂_same.mpr fun account _ => same account)⟩

theorem exists_related {R : α → β → Prop} {xs : List α} {ys : List β} (related : List.Forall₂ R xs ys) {y : β}
    (member : y ∈ ys) : ∃ x ∈ xs, R x y := by
  obtain ⟨i, inside, rfl⟩ := List.getElem_of_mem member
  have bound : i < xs.length := related.length_eq ▸ inside
  exact ⟨xs[i], List.getElem_mem bound, related.get bound inside⟩

theorem forall₂_set {R : α → α → Prop} (refl : ∀ x, R x x) {xs : List α} {i : Nat} {x y : α}
    (atI : xs[i]? = some x) (related : R x y) : List.Forall₂ R xs (xs.set i y) := by
  induction xs generalizing i with
  | nil => cases atI
  | cons first rest ih =>
    cases i with
    | zero =>
      obtain rfl := Option.some.inj atI
      exact .cons related (List.forall₂_same.mpr fun x _ => refl x)
    | succ i => exact .cons (refl first) (ih atI)

theorem forall₂_modify {R : α → α → Prop} (refl : ∀ x, R x x) {f : α → α} (related : ∀ x, R x (f x)) (i : Nat)
    (xs : List α) : List.Forall₂ R xs (xs.modify i f) := by
  induction xs generalizing i with
  | nil =>
    rw [List.modify_nil]
    exact .nil
  | cons x xs ih =>
    cases i with
    | zero => exact .cons (related x) (List.forall₂_same.mpr fun x _ => refl x)
    | succ i => exact .cons (refl x) (ih i)

def NodeTurn.block (turn : NodeTurn) : Option Block :=
  match turn.event with
  | .message _ "block" payload => (BlockMessage.unmarshalling payload).toOption
  | _ => none

section Handlers

variable [WalletCrates]

theorem handle_headers_message_log (payload : List UInt8) (s : PeerState) :
    s.node.SameLog ((handleHeadersMessage payload).run s).2.node := by
  rw [handle_headers_message_node]
  generalize announced s.node.blockchain.headers s.tx.open_ payload = newHeaders
  have same (accounts : List Account) : List.Forall₂ Account.SameOutputs accounts accounts :=
    List.forall₂_same.mpr fun account _ => Account.SameOutputs.refl account
  suffices step : ∀ node : NodeDataPointers, node.blockchain.headers = s.node.blockchain.headers →
      node.blockchain.utxoSet = s.node.blockchain.utxoSet → node.blockchain.blocks = s.node.blockchain.blocks →
      node.accountsPoisoned = s.node.accountsPoisoned → node.accounts = s.node.accounts →
      s.node.SameLog (newHeaders.foldl
        (fun node header => node.onBlockchain (loadHeaderHeights [header])) node) from
    step s.node rfl rfl rfl rfl rfl
  induction newHeaders with
  | nil => exact fun node headers utxoSet blocks poisoned accounts =>
      ⟨headers, utxoSet, blocks, poisoned, accounts ▸ same _⟩
  | cons header newHeaders ih => exact fun node => ih (node.onBlockchain (loadHeaderHeights [header]))

theorem handle_tx_inventory_keeps (inventory : Inventory) : (handleTxInventory inventory).Keeps PeerState.node :=
  fun s => (handle_tx_inventory_sends inventory s).1

theorem handle_inventories_keeps (inventories : List Inventory) (reply : GetdataReply) :
    (handleInventories inventories reply).Keeps PeerState.node := by
  induction inventories generalizing reply with
  | nil => exact .pure reply
  | cons inv inventories ih =>
    refine .bind ?_ ih
    rw [handleInventory]
    refine .bind ?_ fun _ => .bind .get fun s => ?_
    · split_ifs
      · exact handle_tx_inventory_keeps inv
      · exact .pure ()
    · split_ifs
      · exact .lift _
      · exact .pure reply

omit [WalletCrates] in
theorem write_to_node_keeps (message : List UInt8) : (writeToNode message).Keeps PeerState.node :=
  .zoom _ fun _ _ => rfl

theorem handle_getdata_message_keeps (payload : List UInt8) :
    (handleGetdataMessage payload).Keeps PeerState.node := by
  refine .bind (.lift _) fun inventories => .bind (handle_inventories_keeps _ _) fun reply => ?_
  split_ifs
  · exact write_to_node_keeps _
  · exact .bind (.lift _) fun notfoundMessage => write_to_node_keeps _

theorem handle_getheaders_message_keeps (payload : List UInt8) :
    (handleGetheadersMessage payload).Keeps PeerState.node :=
  .bind (.lift _) fun _ => .bind (.lift _) fun _ => .bind .get fun _ => .bind (.lift _) fun _ =>
    .bind (.lift _) fun _ => write_to_node_keeps _

theorem Account.announce_outputs (tx : Transaction) (outputs : List TxOut) (account : Account) :
    account.SameOutputs (account.announce tx outputs) := by
  rw [Account.announce]
  split_ifs
  · exact ⟨rfl, rfl⟩
  · exact .refl account

theorem handle_tx_message_log (payload : List UInt8) (s : NodeDataPointers) :
    s.SameLog ((handleTxMessage payload).run s).2 := by
  by_cases announced : s.accountsPoisoned = false ∧ ∃ tx stop, Transaction.unmarshalling payload 0 = .ok (tx, stop)
  · obtain ⟨alive, tx, stop, decoded⟩ := announced
    rw [handle_tx_message_accounts decoded alive]
    exact .of_map fun account => account.announce_outputs tx tx.txOut
  · refine .of_eq (handle_tx_message_other ?_)
    by_cases alive : s.accountsPoisoned = false
    · exact .inr fun tx stop decoded => announced ⟨alive, tx, stop, decoded⟩
    · exact .inl (Bool.not_eq_false _ ▸ alive)

def Block.settle (utxoSet : UtxoSet) (b : Block) : UtxoSet := b.txn.foldl (fun s tx => tx.settle s) utxoSet

theorem Account.confirm_all_outputs (txn : List Transaction) (account : Account) :
    account.SameOutputs (account.confirmAll txn) := by
  induction txn generalizing account with
  | nil => exact .refl account
  | cons tx txn ih => exact .trans (account.confirm_same tx) (ih _)

/-- What a new block leaves. Once the accounts are poisoned it is not stored. -/
structure Block.Applied (b : Block) (s s' : NodeDataPointers) : Prop where
  headers : s'.blockchain.headers = s.blockchain.headers ++ [b.blockHeader]
  utxoSet : s'.blockchain.utxoSet = b.settle s.blockchain.utxoSet
  addresses : s'.accounts.map Account.address = s.accounts.map Account.address
  stored : s'.accountsPoisoned = true ∧ s'.blockchain.blocks = s.blockchain.blocks ∨
    s.accountsPoisoned = false ∧ s'.accountsPoisoned = false ∧
      s'.blockchain.blocks = s.blockchain.blocks.insert b.hash b ∧
      ∀ account ∈ s'.accounts, account.Current s'.blockchain.utxoSet

theorem apply_new_block_applied {b : Block} (valid : b.WellFormed) {order : UtxoSet → List (Hash × UtxoTuple)}
    (visits : ∀ utxoSet, HashMap.Enumerates utxoSet (order utxoSet)) (s : NodeDataPointers) :
    b.Applied s ((applyNewBlock b order).run s).2 := by
  have settled := Block.give_me_utxos_eq (fun tx member => (valid.transactions tx member).nonempty)
    (s.onBlockchain (includeNewHeader b.blockHeader)).blockchain.utxoSet
  let after : NodeDataPointers := (s.onBlockchain (includeNewHeader b.blockHeader)).onBlockchain
    ({ · with utxoSet := b.settle s.blockchain.utxoSet })
  have loaded : (Proc.zoom (·.blockchain.utxoSet) (fun utxoSet s => s.onBlockchain ({ · with utxoSet }))
      b.giveMeUtxos.widen : Handler Unit).run (s.onBlockchain (includeNewHeader b.blockHeader)) =
        (.ok (), after) := by
    rw [Proc.run_zoom, Proc.run_widen, settled]
    rfl
  rw [applyNewBlock, Proc.run_bind_ok _ (Proc.run_modify ..), Proc.run_bind_ok _ loaded]
  have addresses := set_all_utxos_addresses (order after.blockchain.utxoSet) after.accounts
  cases dead : after.accountsPoisoned with
  | true =>
    have refused : (updateAccountsUtxoSet order).run after = (Outcome.fail poisoned, after) := if_pos dead
    rw [Proc.run_bind_error _ refused]
    exact ⟨rfl, rfl, rfl, .inl ⟨dead, rfl⟩⟩
  | false =>
    have current := @set_all_utxos_current _ _ _ (visits after.blockchain.utxoSet) after.accounts
    rcases set : setAllUtxos (order after.blockchain.utxoSet) after.accounts with ⟨e | _, accounts⟩ <;>
      rw [set] at addresses current
    · have panicked : (updateAccountsUtxoSet order).run after =
          (.error e.widen, { after with accounts, accountsPoisoned := true }) := by
        simp only [updateAccountsUtxoSet, dead, Bool.false_eq_true, if_false, set]
      rw [Proc.run_bind_error _ panicked]
      exact ⟨rfl, rfl, addresses, .inl ⟨rfl, rfl⟩⟩
    · have updated : (updateAccountsUtxoSet order).run after = (.ok (), { after with accounts }) := by
        simp only [updateAccountsUtxoSet, dead, Bool.false_eq_true, if_false, set]
      have confirmed := @Block.run_contains_pending_tx _ b { after with accounts } dead
      rw [Proc.run_bind_ok _ updated, Proc.run_bind_ok _ confirmed]
      refine ⟨rfl, rfl, ?_, .inr ⟨dead, dead, rfl, fun account member => ?_⟩⟩
      · refine Eq.trans ?_ addresses
        exact (List.map_map ..).trans (List.map_congr_left fun account _ => (account.confirm_all_outputs b.txn).1)
      · obtain ⟨before, listed, rfl⟩ := List.mem_map.mp member
        exact (current rfl before listed).same (before.confirm_all_outputs b.txn)

theorem handle_message_cases {order : UtxoSet → List (Hash × UtxoTuple)}
    (visits : ∀ utxoSet, HashMap.Enumerates utxoSet (order utxoSet)) (commandName : String)
    (payload : List UInt8) (r : Reach) :
    (∃ b, commandName = "block" ∧ AcceptedBlock payload b ∧
      b.Applied r.node ((handleMessage order commandName payload).run r).2.node) ∨
    r.node.SameLog ((handleMessage order commandName payload).run r).2.node := by
  unfold handleMessage
  split
  · exact .inr (handle_headers_message_log payload ⟨r.node, r.tx⟩)
  · exact .inr (.of_eq (handle_getdata_message_keeps payload ⟨r.node, r.tx⟩))
  · by_cases new : ∃ b, NewBlock r.node.blockchain.headers payload b
    · obtain ⟨b, new⟩ := new
      refine .inl ⟨b, rfl, new.1, ?_⟩
      have applied := apply_new_block_applied (BlockMessage.unmarshalling_wellFormed new.1.1) visits r.node
      rwa [← handle_block_message_new new order] at applied
    · exact .inr (.of_eq (handle_block_message_other (fun b new' => new ⟨b, new'⟩) order))
  · exact .inr (.refl _)
  · exact .inr (.refl _)
  · exact .inr (handle_tx_message_log payload r.node)
  · exact .inr (.of_eq (handle_getheaders_message_keeps payload ⟨r.node, r.tx⟩))
  · exact .inr (.refl _)

omit [WalletCrates] in
def SpendingAccount.identity (account : SpendingAccount) : String × String := (account.privateKey, account.address)

def Keyed (identity : String × String) : Prop :=
  ∃ rawPrivateKey, decodeWifPrivateKey identity.1 = .ok rawPrivateKey ∧
    generateAddress rawPrivateKey = .ok identity.2

theorem SpendingAccount.new_keyed {wifPrivateKey address : String} (account : SpendingAccount)
    (made : SpendingAccount.new wifPrivateKey address = .ok account) : Keyed account.identity := by
  obtain ⟨rawPrivateKey, decoded, made⟩ := Outcome.bind_eq_ok.mp made
  obtain ⟨_, checked, made⟩ := Outcome.bind_eq_ok.mp made
  obtain rfl := Except.ok.inj made
  obtain ⟨generated, derived, same⟩ := Outcome.bind_eq_ok.mp checked
  refine ⟨rawPrivateKey, decoded, ?_⟩
  split_ifs at same with equal
  · exact derived.trans (congrArg Except.ok equal)
  · cases same

theorem SpendingAccount.new_lists {wifPrivateKey address : String} (account : SpendingAccount)
    (made : SpendingAccount.new wifPrivateKey address = .ok account) :
    account.pendingTransactions = [] ∧ account.confirmedTransactions = [] := by
  obtain ⟨rawPrivateKey, _, made⟩ := Outcome.bind_eq_ok.mp made
  obtain ⟨_, _, made⟩ := Outcome.bind_eq_ok.mp made
  obtain rfl := Except.ok.inj made
  exact ⟨rfl, rfl⟩

omit [WalletCrates] in
def SpendingAccount.Remains (account account' : SpendingAccount) : Prop :=
  account'.privateKey = account.privateKey ∧ account.toAccount.SameOutputs account'.toAccount

/-- An account as it is loaded. -/
structure SpendingAccount.Loaded (utxoSet : UtxoSet) (account : SpendingAccount) : Prop where
  keyed : Keyed account.identity
  current : account.toAccount.Current utxoSet
  pendingTransactions : account.pendingTransactions = []
  confirmedTransactions : account.confirmedTransactions = []

def RunningNode.payment (s : RunningNode) : WalletEvent → Option Transaction
  | .MakeTransaction address amount fee => s.wallet.payment address amount fee
  | _ => none

/-- What a request can do. -/
structure RunningNode.Requested (event : WalletEvent) (s s' : RunningNode) : Prop where
  blockchain : s'.blockchain = s.blockchain
  incoming : s'.incoming = s.incoming
  transactionsReceived : s'.transactionsReceived = s.transactionsReceived
  poisoned : s.wallet.accountsPoisoned = true → s'.wallet.accountsPoisoned = true
  paid : ∀ tx, s.payment event = some tx → ∃ index account inv,
    s.wallet.currentAccountIndex = some index ∧ s.wallet.accounts[index]? = some account ∧
    invMershalling [.newTx tx.hash] = .ok inv ∧
    s'.wallet.accounts = s.wallet.accounts.set index (account.addTransaction tx) ∧
    s'.wallet.nodesSender = s.wallet.nodesSender.map fun nodeSender => ((NodeSender.send inv).run nodeSender).2
  unpaid : s.payment event = none → s'.wallet.nodesSender = s.wallet.nodesSender ∧
    ∃ added, s'.wallet.accounts = s.wallet.accounts ++ added ∧
      ∀ account ∈ added, account.Loaded s.blockchain.utxoSet
  selected : s'.wallet.currentAccountIndex = s.wallet.currentAccountIndex ∨
    ∃ index < s'.wallet.accounts.length, event = .ChangeAccount index ∧ s'.wallet.currentAccountIndex = some index

namespace RunningNode

variable {event : WalletEvent} {s s' : RunningNode}

omit [WalletCrates] in
theorem remains_self (accounts : List SpendingAccount) : List.Forall₂ SpendingAccount.Remains accounts accounts :=
  List.forall₂_same.mpr fun _ _ => ⟨rfl, .refl _⟩

theorem Requested.accounts (requested : Requested event s s') :
    ∃ accounts added, List.Forall₂ SpendingAccount.Remains s.wallet.accounts accounts ∧
      s'.wallet.accounts = accounts ++ added ∧ ∀ account ∈ added, account.Loaded s.blockchain.utxoSet := by
  rcases pays : s.payment event with _ | tx
  · obtain ⟨_, added, all, loaded⟩ := requested.unpaid pays
    exact ⟨s.wallet.accounts, added, remains_self _, all, loaded⟩
  · obtain ⟨index, account, _, _, stored, _, all, _⟩ := requested.paid tx pays
    refine ⟨_, [], ?_, all.trans (List.append_nil _).symm, fun _ member => absurd member List.not_mem_nil⟩
    exact forall₂_set (fun _ => ⟨rfl, .refl _⟩) stored ⟨rfl, .refl _⟩

def quiet (s : RunningNode) : RunningNode := { s with uiEvents := [] }

theorem Requested.quietly (requested : Requested event s s') {s'' : RunningNode} (same : s''.quiet = s'.quiet) :
    Requested event s s'' where
  blockchain := (congrArg RunningNode.blockchain same).trans requested.blockchain
  incoming := (congrArg RunningNode.incoming same).trans requested.incoming
  transactionsReceived := (congrArg RunningNode.transactionsReceived same).trans requested.transactionsReceived
  poisoned dead := (congrArg (·.wallet.accountsPoisoned) same).trans (requested.poisoned dead)
  paid := by
    have unchanged : s''.wallet = s'.wallet := congrArg (·.wallet) same
    exact unchanged ▸ requested.paid
  unpaid := by
    have unchanged : s''.wallet = s'.wallet := congrArg (·.wallet) same
    exact unchanged ▸ requested.unpaid
  selected := by
    have unchanged : s''.wallet = s'.wallet := congrArg (·.wallet) same
    exact unchanged ▸ requested.selected

theorem Requested.refl (unpaid : s.payment event = none) : Requested event s s where
  blockchain := rfl
  incoming := rfl
  transactionsReceived := rfl
  poisoned := id
  paid tx pays := (Option.some_ne_none tx (pays.symm.trans unpaid)).elim
  unpaid _ := ⟨rfl, [], (List.append_nil _).symm, fun _ member => absurd member List.not_mem_nil⟩
  selected := .inl rfl

theorem Requested.bind {m : Proc RunningNode ε α} {f : α → Proc RunningNode ε β}
    (first : Requested event s (m.run s).2) (rest : ∀ a, (f a).Keeps quiet) : Requested event s ((m >>= f).run s).2 := by
  rw [Proc.run_bind]
  rcases ran : m.run s with ⟨e | a, s'⟩ <;> rw [ran] at first
  · exact first
  · exact first.quietly (rest a s')

omit [WalletCrates] in
theorem send_event_to_ui_keeps (event : UIEvent) : (sendEventToUi event : Proc RunningNode ε Unit).Keeps quiet :=
  .modify fun _ => rfl

omit [WalletCrates] in
theorem read_account_keeps (index : Nat) : (readAccount index).Keeps quiet := by
  refine .bind .get fun s => ?_
  split_ifs
  · exact .lift _
  · exact .lift _

theorem add_account_requested {order : UtxoSet → List (Hash × UtxoTuple)}
    (visits : ∀ utxoSet, HashMap.Enumerates utxoSet (order utxoSet)) (wifPrivateKey address : String)
    (s : RunningNode) :
    Requested (.AddAccountRequest wifPrivateKey address) s ((addAccount order wifPrivateKey address).run s).2 := by
  rw [addAccount]
  rcases made : SpendingAccount.new wifPrivateKey address with (err | _ | _) | account
  · rw [Proc.run_bind_ok _ (Proc.run_attempt_err (Proc.run_lift _ s))]
    exact (Requested.refl rfl).quietly rfl
  · exact .refl rfl
  · exact .refl rfl
  rw [Proc.run_bind_ok _ (Proc.run_attempt_ok (Proc.run_lift _ s))]
  dsimp only
  rw [loadData, Proc.run_bind, Proc.run_bind_ok _ (Proc.run_get s)]
  rcases read : utxosReferencedToAccount (order s.blockchain.utxoSet) account.address with e | utxosToAccount
  · exact .refl rfl
  rw [Outcome.widen_ok, Proc.run_bind_ok _ (Proc.run_lift _ _), Proc.run_pure]
  dsimp only
  refine Requested.bind ?_ fun _ => send_event_to_ui_keeps _
  rw [pushAccount, Proc.run_bind_ok _ (Proc.run_get s)]
  split_ifs with dead
  · exact .refl rfl
  · refine ⟨rfl, rfl, rfl, id, fun tx pays => (Option.some_ne_none tx pays.symm).elim,
      fun _ => ⟨rfl, [_], rfl, fun added member => ?_⟩,
      .inl rfl⟩
    obtain rfl := List.mem_singleton.mp member
    obtain ⟨pendingTransactions, confirmedTransactions⟩ := account.new_lists made
    exact ⟨account.new_keyed made, .of_read (visits s.blockchain.utxoSet) read, pendingTransactions,
      confirmedTransactions⟩

theorem change_account_requested (index : Nat) (s : RunningNode) :
    Requested (.ChangeAccount index) s ((changeAccount index).run s).2 := by
  rw [changeAccount, Proc.run_bind_ok _ (Proc.run_get s)]
  split_ifs with dead outside
  · exact .refl rfl
  · exact .refl rfl
  rw [Proc.run_bind_ok _ (Proc.run_modify _ s)]
  have inside := Nat.lt_of_not_le outside
  have shown : (do
      let new_account ← (readAccount index).mapErr NodeCustomErrors.fmt
      sendEventToUi (.AccountChanged new_account)).Keeps quiet :=
    .bind ((read_account_keeps index).mapErr _) fun _ => send_event_to_ui_keeps _
  refine Requested.quietly ?_ (shown _)
  exact ⟨rfl, rfl, rfl, id, fun tx pays => (Option.some_ne_none tx pays.symm).elim,
    fun _ => ⟨rfl, [], (List.append_nil _).symm, fun _ member => absurd member List.not_mem_nil⟩,
    .inr ⟨index, inside, rfl, rfl⟩⟩

theorem make_transaction_requested (address : String) (amount fee : Int64) (s : RunningNode) :
    Requested (.MakeTransaction address amount fee) s ((makeTransaction address amount fee).run s).2 := by
  refine Requested.bind ?_ fun _ => send_event_to_ui_keeps _
  rw [Proc.run_zoom]
  obtain ⟨index, account, tx, inv, pays, _, inUse, stored, _, _, built, ran⟩ | ⟨unpaid, e, dead, dies, ran⟩ :=
    s.wallet.make_transaction_cases address amount fee
  · rw [ran]
    refine ⟨rfl, rfl, rfl, id, fun tx' pays' => ?_, 
      fun unpaid => (Option.some_ne_none tx (pays.symm.trans unpaid)).elim, .inl rfl⟩
    obtain rfl := Option.some.inj (pays.symm.trans pays')
    exact ⟨index, account, inv, inUse, stored, built, rfl, rfl⟩
  · rw [ran]
    exact ⟨rfl, rfl, rfl, dies, fun tx pays => (Option.some_ne_none tx (pays.symm.trans unpaid)).elim,
      fun _ => ⟨rfl, [], (List.append_nil _).symm, fun _ member => absurd member List.not_mem_nil⟩, .inl rfl⟩

theorem handle_ui_request_requested {order : UtxoSet → List (Hash × UtxoTuple)}
    (visits : ∀ utxoSet, HashMap.Enumerates utxoSet (order utxoSet)) (event : WalletEvent) (s : RunningNode) :
    Requested event s ((handleUiRequest order event).run s).2 := by
  cases event with
  | Start => exact .refl rfl
  | AddAccountRequest wif address =>
    refine (add_account_requested visits wif address s).bind (m := Proc.attempt _) fun result => ?_
    split
    · exact send_event_to_ui_keeps _
    · exact .pure ()
  | MakeTransaction address amount fee =>
    refine (make_transaction_requested address amount fee s).bind (m := Proc.attempt _) fun result => ?_
    cases result <;> exact send_event_to_ui_keeps _
  | PoiOfTransactionRequest blockHash transactionHash =>
    have keeps : (handlePoi blockHash transactionHash).Keeps quiet :=
      .bind .get fun _ => .bind (.lift _) fun _ => send_event_to_ui_keeps _
    exact (Requested.refl rfl).quietly (keeps s)
  | Finish =>
    have same : Requested .Finish s s := .refl rfl
    exact ⟨rfl, rfl, rfl, id, same.paid, same.unpaid, .inl rfl⟩
  | ChangeAccount index =>
    refine (change_account_requested index s).bind (m := Proc.attempt _) fun result => ?_
    cases result with
    | ok _ => exact .pure ()
    | error err => exact send_event_to_ui_keeps _
  | GetAccountRequest =>
    have keeps : handleGetAccount.Keeps quiet := by
      refine .bind (.bind .get fun s => ?_) fun account => ?_
      · cases s.wallet.currentAccountIndex with
        | some index => exact .bind (read_account_keeps index).unwrap fun _ => .pure _
        | none => exact .pure none
      · cases account with
        | some account => exact send_event_to_ui_keeps _
        | none => exact .pure ()
    exact (Requested.refl rfl).quietly (keeps s)
  | GetTransactionsRequest =>
    have keeps : handleGetTransactions.Keeps quiet := by
      refine .bind (.bind .get fun s => ?_) fun transactions => ?_
      · cases s.wallet.currentAccountIndex with
        | some index => exact .bind (read_account_keeps index).unwrap fun _ => .bind (.lift _) fun _ => .pure _
        | none => exact .pure none
      · cases transactions with
        | some transactions => exact send_event_to_ui_keeps _
        | none => exact .pure ()
    exact (Requested.refl rfl).quietly (keeps s)
  | SearchBlock blockHash =>
    have keeps : (handleSearchBlock blockHash).Keeps quiet := by
      refine .bind .get fun s => ?_
      cases s.blockchain.searchBlock blockHash <;> exact send_event_to_ui_keeps _
    exact (Requested.refl rfl).quietly (keeps s)
  | SearchHeader blockHash =>
    have keeps : (handleSearchHeader blockHash).Keeps quiet := by
      refine .bind .get fun s => ?_
      cases s.blockchain.searchHeader blockHash <;> exact send_event_to_ui_keeps _
    exact (Requested.refl rfl).quietly (keeps s)

def identities (s : RunningNode) : List (String × String) := s.wallet.accounts.map SpendingAccount.identity

omit [WalletCrates] in
theorem zip_accounts {spending : List SpendingAccount} {accounts : List Account}
    (addresses : accounts.map Account.address = spending.map (·.address)) :
    let zipped := List.zipWith (fun (spending : SpendingAccount) (account : Account) =>
      { spending with toAccount := account }) spending accounts
    zipped.map (·.toAccount) = accounts ∧
      zipped.map SpendingAccount.identity = spending.map SpendingAccount.identity := by
  induction spending generalizing accounts with
  | nil =>
    obtain rfl := List.map_eq_nil_iff.mp addresses
    exact ⟨rfl, rfl⟩
  | cons first spending ih =>
    cases accounts with
    | nil => cases addresses
    | cons account accounts =>
      obtain ⟨same, addresses⟩ := List.cons.inj addresses
      obtain ⟨shared, identities⟩ := ih addresses
      refine ⟨congrArg (account :: ·) shared, ?_⟩
      rw [List.zipWith_cons_cons, List.map_cons, List.map_cons, identities, SpendingAccount.identity,
        SpendingAccount.identity, same]

/-- What a message leaves of the wallet. -/
structure Handled (s s' : RunningNode) (node : NodeDataPointers) : Prop where
  node : s'.node = node
  identities : s'.identities = s.identities
  selected : s'.wallet.currentAccountIndex = s.wallet.currentAccountIndex

omit [WalletCrates] in
theorem with_reach_handled (reach : Reach) (addresses : reach.node.accounts.map Account.address =
      s.wallet.accounts.map (·.address)) (peer : Nat) : Handled s (s.withReach peer reach) reach.node := by
  obtain ⟨shared, identities⟩ := zip_accounts addresses
  refine ⟨?_, identities, rfl⟩
  rw [node, withReach, withPeers, withNode]
  simp only [shared]

/-- A new block is applied, or the log stays as it is. -/
def Logs (turn : NodeTurn) (s s' : RunningNode) : Prop :=
  (∃ b ∈ turn.block, b.Accepted ∧ b.WellFormed ∧ b.Applied s.node s'.node) ∨ s.node.SameLog s'.node

theorem message_open {peer : Nat} {tx : NodeSender} (found : s.peers[peer]? = some tx) (running : tx.open_ = true)
    (order : UtxoSet → List (Hash × UtxoTuple)) (commandName : String) (payload : List UInt8) :
    let ran := (handleMessage order commandName payload).run ⟨s.node, tx, s.transactionsReceived⟩
    ∃ tx' aborted, s.message order peer commandName payload =
        { s.withReach peer { ran.2 with tx := tx' } with aborted } ∧
      (ran.1 = .ok () ∧ tx' = ran.2.tx ∧ aborted = s.aborted ∨
        ran.1 ≠ .ok () ∧ (tx' = { ran.2.tx with open_ := false } ∨ tx' = ran.2.tx ∧ aborted = true)) := by
  rw [message, found]
  dsimp only
  rw [if_pos running]
  rcases ran : (handleMessage order commandName payload).run ⟨s.node, tx, s.transactionsReceived⟩ with
    ⟨(_ | _ | _) | _, reach⟩
  · exact ⟨{ reach.tx with open_ := false }, s.aborted, rfl, .inr ⟨(nomatch ·), .inl rfl⟩⟩
  · exact ⟨{ reach.tx with open_ := false }, s.aborted, rfl, .inr ⟨(nomatch ·), .inl rfl⟩⟩
  · exact ⟨reach.tx, true, rfl, .inr ⟨(nomatch ·), .inr ⟨rfl, rfl⟩⟩⟩
  · exact ⟨reach.tx, s.aborted, rfl, .inl ⟨rfl, rfl, rfl⟩⟩

theorem message_cases (order : UtxoSet → List (Hash × UtxoTuple)) (s : RunningNode) (peer : Nat)
    (commandName : String) (payload : List UInt8) :
    s.message order peer commandName payload = s ∨
    ∃ tx, s.peers[peer]? = some tx ∧ tx.open_ = true ∧
      let ran := (handleMessage order commandName payload).run ⟨s.node, tx, s.transactionsReceived⟩
      ∃ tx' aborted, s.message order peer commandName payload =
          { s.withReach peer { ran.2 with tx := tx' } with aborted } ∧
        (ran.1 = .ok () ∧ tx' = ran.2.tx ∧ aborted = s.aborted ∨
          ran.1 ≠ .ok () ∧ (tx' = { ran.2.tx with open_ := false } ∨ tx' = ran.2.tx ∧ aborted = true)) := by
  rcases found : s.peers[peer]? with _ | tx
  · exact .inl (by rw [message, found])
  by_cases running : tx.open_ = true
  · exact .inr ⟨tx, rfl, running, message_open found running order commandName payload⟩
  · refine .inl ?_
    rw [message, found]
    exact if_neg running

theorem step_cases (s : RunningNode) (turn : NodeTurn) :
    (Logs turn s (s.step turn) ∧ Handled s (s.step turn) (s.step turn).node) ∨
      ∃ event, turn.event = .request event ∧ Requested event s (s.step turn) := by
  have stays : Logs turn s s ∧ Handled s s s.node := ⟨.inr (.refl _), rfl, rfl, rfl⟩
  rw [step]
  by_cases aborted : s.aborted = true
  · rw [if_pos aborted]
    exact .inl stays
  rw [if_neg aborted]
  rcases happens : turn.event with ⟨peer, commandName, payload⟩ | peer | _ | event
  · left
    dsimp only
    rcases message_cases turn.order s peer commandName payload with same | ⟨tx, _, _, tx', aborted, handled, _⟩
    · rw [same]
      exact stays
    rw [handled]
    have cases := handle_message_cases turn.visits commandName payload ⟨s.node, tx, s.transactionsReceived⟩
    generalize (handleMessage turn.order commandName payload).run ⟨s.node, tx, s.transactionsReceived⟩ = ran at cases
    have addresses : ran.2.node.accounts.map Account.address = s.wallet.accounts.map (·.address) := by
      have before : s.node.accounts.map Account.address = s.wallet.accounts.map (·.address) := List.map_map ..
      rcases cases with ⟨b, _, _, applied⟩ | same
      · exact applied.addresses.trans before
      · exact (same.addresses).trans before
    obtain ⟨node, identities, selected⟩ := with_reach_handled { ran.2 with tx := tx' } addresses peer
    refine ⟨?_, rfl, identities, selected⟩
    rcases cases with ⟨b, rfl, ⟨decoded, accepted⟩, applied⟩ | same
    · refine .inl ⟨b, ?_, accepted, BlockMessage.unmarshalling_wellFormed decoded, node ▸ applied⟩
      rw [NodeTurn.block, happens]
      exact congrArg Except.toOption decoded
    · exact .inr (node ▸ same)
  · exact .inl ⟨.inr (.refl s.node), rfl, rfl, rfl⟩
  · exact .inl ⟨.inr (.refl s.node), rfl, rfl, rfl⟩
  · have requested := handle_ui_request_requested turn.visits event s
    dsimp only
    rw [request]
    split_ifs
    · refine .inr ⟨event, rfl, ?_⟩
      rcases ran : (handleUiRequest turn.order event).run s with ⟨(e | _ | _) | _, s'⟩ <;> rw [ran] at requested
      · cases e
      · exact { requested with }
      · exact { requested with }
      · exact requested
    · exact .inl stays

/-- The node is what these blocks make of the chain it started from. Those that came after the accounts were
poisoned are not stored. -/
structure Follows (start : Blockchain) (stored unstored : List Block) (s : RunningNode) : Prop where
  headers : s.blockchain.headers = start.headers ++ (stored ++ unstored).map Block.blockHeader
  utxoSet : s.blockchain.utxoSet = (stored ++ unstored).foldl Block.settle start.utxoSet
  blocks : s.blockchain.blocks = stored.foldl (fun blocks b => blocks.insert b.hash b) start.blocks
  accepted : ∀ b ∈ stored ++ unstored, b.Accepted ∧ b.WellFormed
  poisoned : unstored ≠ [] → s.wallet.accountsPoisoned = true
  current : s.wallet.accountsPoisoned = false →
    ∀ account ∈ s.wallet.accounts, account.toAccount.Current s.blockchain.utxoSet

variable {start : Blockchain} {stored unstored : List Block}

theorem Follows.logs (follows : s.Follows start stored unstored) {turn : NodeTurn} (logs : Logs turn s s') :
    ∃ stored' unstored' added, stored' ++ unstored' = stored ++ unstored ++ added ∧
      List.Sublist added turn.block.toList ∧ s'.Follows start stored' unstored' := by
  have members {P : Account → Prop} (all : ∀ account ∈ s'.node.accounts, P account) :
      ∀ account ∈ s'.wallet.accounts, P account.toAccount :=
    fun account member => all _ (List.mem_map_of_mem member)
  rcases logs with ⟨b, brought, accepted, valid, applied⟩ | same
  · have log : List.Sublist [b] turn.block.toList := by
      rw [Option.mem_def.mp brought]
      exact .refl _
    have all (b' : Block) (member : b' ∈ stored ++ unstored ++ [b]) : b'.Accepted ∧ b'.WellFormed := by
      rcases List.mem_append.mp member with member | member
      · exact follows.accepted b' member
      · exact List.mem_singleton.mp member ▸ ⟨accepted, valid⟩
    have headers : s'.blockchain.headers = start.headers ++ (stored ++ unstored ++ [b]).map Block.blockHeader := by
      rw [List.map_append, ← List.append_assoc, ← follows.headers]
      exact applied.headers
    have utxoSet : s'.blockchain.utxoSet = (stored ++ unstored ++ [b]).foldl Block.settle start.utxoSet := by
      rw [List.foldl_append, ← follows.utxoSet]
      exact applied.utxoSet
    rcases applied.stored with ⟨dead, blocks⟩ | ⟨alive, alive', blocks, current⟩
    · refine ⟨stored, unstored ++ [b], [b], (List.append_assoc ..).symm, log, ?_⟩
      rw [List.append_assoc] at headers utxoSet all
      exact ⟨headers, utxoSet, blocks.trans follows.blocks, all, fun _ => dead,
        fun alive => Bool.noConfusion (alive.symm.trans dead)⟩
    · have none : unstored = [] := by
        by_contra some
        exact Bool.noConfusion (alive.symm.trans (follows.poisoned some))
      subst none
      refine ⟨stored ++ [b], [], [b], by simp, log, ?_⟩
      rw [List.append_nil] at headers utxoSet all
      refine ⟨by rwa [List.append_nil], by rwa [List.append_nil], ?_, by rwa [List.append_nil],
        fun some => absurd rfl some, fun _ => members current⟩
      rw [List.foldl_append, ← follows.blocks]
      exact blocks
  · refine ⟨stored, unstored, [], (List.append_nil _).symm, List.nil_sublist _, ?_⟩
    refine ⟨same.headers.trans follows.headers, same.utxoSet.trans follows.utxoSet,
      same.blocks.trans follows.blocks, follows.accepted, fun some => same.poisoned.trans (follows.poisoned some),
      fun alive => members (P := fun account => account.Current _) fun account member => ?_⟩
    obtain ⟨before, listed, outputs⟩ := exists_related same.accounts member
    obtain ⟨spending, held, rfl⟩ := List.mem_map.mp listed
    have current : spending.toAccount.Current s.blockchain.utxoSet :=
      follows.current (same.poisoned.symm.trans alive) spending held
    exact same.utxoSet ▸ current.same outputs

theorem Follows.requested (follows : s.Follows start stored unstored) (requested : Requested event s s') :
    s'.Follows start stored unstored where
  headers := requested.blockchain ▸ follows.headers
  utxoSet := requested.blockchain ▸ follows.utxoSet
  blocks := requested.blockchain ▸ follows.blocks
  accepted := follows.accepted
  poisoned some := requested.poisoned (follows.poisoned some)
  current := by
    intro alive account member
    have before : s.wallet.accountsPoisoned = false := by
      by_contra dead
      exact Bool.noConfusion (alive.symm.trans (requested.poisoned (Bool.not_eq_false _ ▸ dead)))
    obtain ⟨accounts, added, remain, all, loaded⟩ := requested.accounts
    rw [requested.blockchain]
    rcases List.mem_append.mp (all ▸ member) with member | member
    · obtain ⟨earlier, listed, same⟩ := exists_related remain member
      exact (follows.current before earlier listed).same same.2
    · exact (loaded account member).current

/-- From a node that has just been set up, in any run: the chain is the one at the start with the accepted
blocks among those that messages brought, one after the other. All of them are stored, and every account
holds the outputs that pay it, as long as no thread has panicked while it was writing the accounts. -/
theorem follows_run (blockchain : Blockchain) (connectedNodes : Nat) (turns : List NodeTurn) :
    ∃ stored unstored, List.Sublist (stored ++ unstored) (turns.filterMap NodeTurn.block) ∧
      (execute step (.new blockchain connectedNodes) turns).Follows blockchain stored unstored := by
  suffices run : ∀ (s : RunningNode) (stored unstored : List Block), s.Follows blockchain stored unstored →
      ∃ stored' unstored' added, stored' ++ unstored' = stored ++ unstored ++ added ∧
        List.Sublist added (turns.filterMap NodeTurn.block) ∧
        (execute step s turns).Follows blockchain stored' unstored' by
    have fresh : (new blockchain connectedNodes).Follows blockchain [] [] :=
      ⟨(List.append_nil _).symm, rfl, rfl, fun _ member => absurd member List.not_mem_nil,
        fun some => absurd rfl some, fun _ _ member => absurd member List.not_mem_nil⟩
    obtain ⟨stored, unstored, added, log, part, follows⟩ := run _ [] [] fresh
    exact ⟨stored, unstored, log ▸ part, follows⟩
  induction turns with
  | nil => exact fun s stored unstored follows =>
      ⟨stored, unstored, [], (List.append_nil _).symm, List.nil_sublist _, follows⟩
  | cons turn turns ih =>
    intro s stored unstored follows
    have one : ∃ stored' unstored' added, stored' ++ unstored' = stored ++ unstored ++ added ∧
        List.Sublist added turn.block.toList ∧ (s.step turn).Follows blockchain stored' unstored' := by
      rcases s.step_cases turn with ⟨logs, _⟩ | ⟨event, _, requested⟩
      · exact follows.logs logs
      · exact ⟨stored, unstored, [], (List.append_nil _).symm, List.nil_sublist _, follows.requested requested⟩
    obtain ⟨stored', unstored', first, log, part, follows⟩ := one
    obtain ⟨stored'', unstored'', more, log', part', follows⟩ := ih _ _ _ follows
    refine ⟨stored'', unstored'', first ++ more, by rw [log', log, List.append_assoc], ?_, follows⟩
    have split : (turn :: turns).filterMap NodeTurn.block = turn.block.toList ++ turns.filterMap NodeTurn.block := by
      cases brought : turn.block <;> simp [brought]
    exact split ▸ part.append part'

def inUse (s : RunningNode) : Option SpendingAccount :=
  s.wallet.currentAccountIndex.bind fun index => s.wallet.accounts[index]?

/-- Every account has the key of its address, and the account in use is there. -/
structure Owned (s : RunningNode) : Prop where
  keyed : ∀ identity ∈ s.identities, Keyed identity
  selected : ∀ index, s.wallet.currentAccountIndex = some index → index < s.identities.length

/-- A turn that does not change the account in use. -/
def Stays (turn : NodeTurn) : Prop := ∀ index, turn.event ≠ .request (.ChangeAccount index)

theorem Requested.identities (requested : Requested event s s') :
    ∃ added, s'.identities = s.identities ++ added ∧ ∀ identity ∈ added, Keyed identity := by
  obtain ⟨accounts, added, remain, all, loaded⟩ := requested.accounts
  refine ⟨added.map SpendingAccount.identity, ?_,
    List.forall_mem_map.mpr fun account member => (loaded account member).keyed⟩
  have same : accounts.map SpendingAccount.identity = s.identities := by
    rw [RunningNode.identities]
    clear all
    generalize s.wallet.accounts = before at remain
    induction remain with
    | nil => rfl
    | cons first _ ih =>
      obtain ⟨privateKey, ⟨address, _⟩⟩ := first
      rw [List.map_cons, List.map_cons, ih, SpendingAccount.identity, SpendingAccount.identity, privateKey, address]
  rw [RunningNode.identities, all, List.map_append, same]

theorem Owned.step (owned : s.Owned) (turn : NodeTurn) :
    (s.step turn).Owned ∧ s.identities <+: (s.step turn).identities ∧
      (Stays turn → (s.step turn).wallet.currentAccountIndex = s.wallet.currentAccountIndex) := by
  rcases s.step_cases turn with ⟨_, handled⟩ | ⟨event, happens, requested⟩
  · refine ⟨⟨?_, fun index selected => ?_⟩, handled.identities ▸ List.prefix_rfl, fun _ => handled.selected⟩
    · rw [handled.identities]
      exact owned.keyed
    · rw [handled.identities]
      exact owned.selected index (handled.selected.symm.trans selected)
  · obtain ⟨added, all, keyed⟩ := requested.identities
    refine ⟨⟨?_, fun index selected => ?_⟩, all ▸ List.prefix_append _ _, fun stays => ?_⟩
    · rw [all]
      exact List.forall_mem_append.mpr ⟨owned.keyed, keyed⟩
    · rcases requested.selected with same | ⟨chosen, inside, _, set⟩
      · rw [all, List.length_append]
        exact Nat.lt_add_right _ (owned.selected index (same.symm.trans selected))
      · obtain rfl := Option.some.inj (set.symm.trans selected)
        rwa [RunningNode.identities, List.length_map]
    · rcases requested.selected with same | ⟨chosen, _, rfl, _⟩
      · exact same
      · exact absurd happens (stays chosen)

theorem Owned.run (owned : s.Owned) (turns : List NodeTurn) :
    (execute RunningNode.step s turns).Owned ∧ s.identities <+: (execute RunningNode.step s turns).identities ∧
      ((∀ turn ∈ turns, Stays turn) →
        (execute RunningNode.step s turns).wallet.currentAccountIndex = s.wallet.currentAccountIndex) := by
  induction turns generalizing s with
  | nil => exact ⟨owned, List.prefix_rfl, fun _ => rfl⟩
  | cons turn turns ih =>
    obtain ⟨first, grows, stays⟩ := owned.step turn
    obtain ⟨rest, grows', stays'⟩ := ih first
    refine ⟨rest, grows.trans grows', fun all => ?_⟩
    obtain ⟨here, later⟩ := List.forall_mem_cons.mp all
    exact (stays' later).trans (stays here)

/-- In any run, every account has the key of its address. The one in use is there, and it stays in use, with
its key and its address, until another one is chosen. -/
theorem wallet_run (blockchain : Blockchain) (connectedNodes : Nat) (turns more : List NodeTurn) :
    let s := execute step (new blockchain connectedNodes) turns
    (∀ account ∈ s.wallet.accounts, Keyed account.identity) ∧
      (s.wallet.currentAccountIndex.isSome → s.inUse.isSome) ∧
      ∀ account, s.inUse = some account → (∀ turn ∈ more, Stays turn) →
        ∃ account', (execute step s more).inUse = some account' ∧ account'.identity = account.identity := by
  intro s
  have fresh : (new blockchain connectedNodes).Owned :=
    ⟨fun _ member => absurd member List.not_mem_nil, fun _ selected => nomatch selected⟩
  obtain ⟨owned, _⟩ := fresh.run turns
  obtain ⟨_, grows, stays⟩ := owned.run more
  refine ⟨List.forall_mem_map.mp owned.keyed, fun selected => ?_, fun account used all => ?_⟩
  · obtain ⟨index, chosen⟩ := Option.isSome_iff_exists.mp selected
    have inside := owned.selected index chosen
    rw [RunningNode.identities, List.length_map] at inside
    rw [inUse, chosen]
    exact Option.isSome_iff_exists.mpr ⟨_, List.getElem?_eq_getElem inside⟩
  · obtain ⟨index, chosen, found⟩ := Option.bind_eq_some_iff.mp used
    have named : s.identities[index]? = some account.identity := by
      rw [RunningNode.identities, List.getElem?_map, found]
      rfl
    have still : (execute step s more).identities[index]? = some account.identity :=
      (List.getElem?_eq_some_iff.mp named).elim fun inside atIndex =>
        List.getElem?_eq_some_iff.mpr ⟨_, (grows.getElem inside).symm.trans atIndex⟩
    rw [RunningNode.identities, List.getElem?_map] at still
    obtain ⟨account', found', same⟩ := Option.map_eq_some_iff.mp still
    refine ⟨account', ?_, same⟩
    rw [inUse, (stays all).trans chosen]
    exact found'

end RunningNode

end Handlers

end BitcoinNode
