import BitcoinNode.Lib.Staged
import BitcoinNode.MoneyConserved
import BitcoinNode.PendingTransactions
import BitcoinNode.Replay

/-! The pending lists over a whole run of payments and messages. A payment does not look at what is
pending, and an announcement does not look at what is confirmed. -/
namespace BitcoinNode

def Transaction.outpoints (tx : Transaction) : List Outpoint := tx.txIn.map (·.previousOutput)

def Transaction.Apart (tx other : Transaction) : Prop := ∀ outpoint ∈ tx.outpoints, outpoint ∉ other.outpoints

theorem Transaction.Apart.symm {tx other : Transaction} (apart : tx.Apart other) : other.Apart tx :=
  fun outpoint there here => apart outpoint here there

/-- The transactions of an account, with those that it made itself. -/
def Account.staged (account : Account) (made : List Transaction) : Staged Transaction :=
  ⟨account.pendingTransactions, account.confirmedTransactions, made⟩

/-- A node with its wallet. `made` records which account made which transaction. -/
structure NodeWallet where
  blockchain : Blockchain
  wallet : PaymentWallet
  made : List (Nat × Transaction)

inductive WalletCall where
  | makeTransaction (index : Nat) (addressReceiver : String) (amount fee : Int64)
  | txMessage (payload : List UInt8)
  | blockMessage (call : BlockCall)

namespace NodeWallet

/-- The transactions that the account at a position made. -/
def madeBy (s : NodeWallet) (index : Nat) : List Transaction :=
  (s.made.filter (·.1 = index)).map Prod.snd

/-- What the handlers of messages share with the wallet. -/
def node (s : NodeWallet) : NodeDataPointers :=
  ⟨s.blockchain, s.wallet.accounts.map (·.toAccount), s.wallet.accountsPoisoned⟩

def withNode (s : NodeWallet) (node : NodeDataPointers) : NodeWallet :=
  { s with
    blockchain := node.blockchain
    wallet := { s.wallet with
      accounts := List.zipWith (fun spending account => { spending with toAccount := account })
        s.wallet.accounts node.accounts
      accountsPoisoned := node.accountsPoisoned } }

/-- No transaction is pending twice or pending and confirmed, and no outpoint is spent by two pending
transactions that the account made. -/
def Clean (s : NodeWallet) : Prop :=
  ∀ index (account : SpendingAccount), s.wallet.accounts[index]? = some account →
    (account.toAccount.staged (s.madeBy index)).Clean Transaction.Apart

def Kept (s : NodeWallet) : Prop :=
  ∀ index (account : SpendingAccount), s.wallet.accounts[index]? = some account →
    (account.toAccount.staged (s.madeBy index)).Kept

theorem with_node_account {s : NodeWallet} {node : NodeDataPointers} {index : Nat} {account : SpendingAccount}
    (stored : (s.withNode node).wallet.accounts[index]? = some account) :
    ∃ before, s.wallet.accounts[index]? = some before ∧ node.accounts[index]? = some account.toAccount := by
  rw [withNode, List.getElem?_zipWith] at stored
  rcases here : s.wallet.accounts[index]? with _ | before <;>
    rcases there : node.accounts[index]? with _ | after <;> simp [here, there] at stored
  exact ⟨before, rfl, by rw [← stored]⟩

theorem with_node_map {s : NodeWallet} {node : NodeDataPointers} {f : Account → Account}
    (accounts : node.accounts = s.wallet.accounts.map fun account => f account.toAccount) :
    (s.withNode node).wallet.accounts =
      s.wallet.accounts.map fun account => { account with toAccount := f account.toAccount } := by
  rw [withNode, accounts]
  simp [List.zipWith_map_right, List.zipWith_self]

theorem made_by_append (s : NodeWallet) (index paying : Nat) (tx : Transaction) :
    madeBy { s with made := s.made ++ [(paying, tx)] } index =
      if paying = index then s.madeBy index ++ [tx] else s.madeBy index := by
  rw [madeBy, madeBy, List.filter_append, List.map_append]
  split_ifs with same <;> simp [same]

theorem make_transaction_staged {P : Staged Transaction → Prop} {s s' : NodeWallet} {index : Nat}
    {account : SpendingAccount} {tx : Transaction} (stored : s.wallet.accounts[index]? = some account)
    (accounts : s'.wallet.accounts = s.wallet.accounts.set index (account.addTransaction tx))
    (made : s'.made = s.made ++ [(index, tx)])
    (holds : ∀ index (account : SpendingAccount), s.wallet.accounts[index]? = some account →
      P (account.toAccount.staged (s.madeBy index))) :
    (∀ index (account : SpendingAccount), s'.wallet.accounts[index]? = some account →
      P (account.toAccount.staged (s'.madeBy index))) ↔
    P ((account.toAccount.staged (s.madeBy index)).make tx) := by
  have madeBy (other : Nat) : s'.madeBy other =
      if index = other then s.madeBy other ++ [tx] else s.madeBy other := by
    rw [← made_by_append, NodeWallet.madeBy, made]
    rfl
  have bound := (List.getElem?_eq_some_iff.mp stored).1
  constructor
  · intro after
    have here := after index (account.addTransaction tx) (by rw [accounts, List.getElem?_set_self bound])
    rwa [madeBy, if_pos rfl] at here
  · intro paid other account' stored'
    rw [madeBy]
    by_cases same : index = other
    · subst same
      rw [accounts, List.getElem?_set_self bound] at stored'
      rw [if_pos rfl, ← Option.some.inj stored']
      exact paid
    · rw [accounts, List.getElem?_set_ne same] at stored'
      rw [if_neg same]
      exact holds other account' stored'

end NodeWallet

section Run

variable [WalletCrates]

namespace WalletCall

/-- The wallet's account in use is the one that pays. -/
def step (s : NodeWallet) : WalletCall → NodeWallet
  | makeTransaction index addressReceiver amount fee =>
    let ran := (PaymentWallet.makeTransaction addressReceiver amount fee).run
      { s.wallet with currentAccountIndex := some index }
    let made := (s.wallet.accounts[index]?.toList).filterMap fun account =>
      match account.signedTransaction addressReceiver amount fee with
      | .ok tx => some (index, tx)
      | .error _ => none
    { s with wallet := ran.2, made := s.made ++ made }
  | txMessage payload => s.withNode ((handleTxMessage payload).run s.node).2
  | blockMessage call => s.withNode (call.step s.node)

def Succeeds (s : NodeWallet) : WalletCall → Prop
  | makeTransaction index addressReceiver amount fee =>
    ((PaymentWallet.makeTransaction addressReceiver amount fee).run
      { s.wallet with currentAccountIndex := some index }).1 = .ok ()
  | txMessage _ => True
  | blockMessage _ => True

instance (s : NodeWallet) (call : WalletCall) : Decidable (call.Succeeds s) :=
  match call with
  | makeTransaction _ _ _ _ => inferInstanceAs (Decidable (_ = _))
  | txMessage _ => inferInstanceAs (Decidable True)
  | blockMessage _ => inferInstanceAs (Decidable True)

/-- A payment selects no output that a pending transaction of the account spends, and what is announced
to an account is not confirmed there, unless it is pending. -/
def Unspent (s : NodeWallet) : WalletCall → Prop
  | makeTransaction index _ amount fee => ∀ account, s.wallet.accounts[index]? = some account →
    ∀ held ∈ holdings (selection (amount.toInt + fee.toInt) 0 account.utxoSet),
    ∀ tx ∈ account.pendingTransactions, tx ∈ s.madeBy index → outpointOf held ∉ tx.outpoints
  | txMessage payload => ∀ tx stop, Transaction.unmarshalling payload 0 = .ok (tx, stop) →
    s.wallet.accountsPoisoned = false → ∀ account ∈ s.wallet.accounts,
    tx ∉ account.pendingTransactions → involves account.address tx.txOut →
      tx ∉ account.confirmedTransactions
  | blockMessage _ => True

end WalletCall

/-- A transaction that is this payment, whatever its signatures. -/
def SpendingAccount.Repeats (account : SpendingAccount) (addressReceiver : String) (amount fee : Int64)
    (tx : Transaction) : Prop :=
  ∃ utxosToSpend unsigned,
    BitcoinNode.getUtxosForAmount (amount + fee) account.utxoSet 0 = .ok utxosToSpend ∧
    Transaction.generateUnsignedTransaction addressReceiver account.address amount fee utxosToSpend =
      .ok unsigned ∧ tx.outpoints = unsigned.outpoints ∧ tx.txOut = unsigned.txOut

/-- A payment that is pending or confirmed is not made again. -/
def WalletCall.Unrepeated (s : NodeWallet) : WalletCall → Prop
  | makeTransaction index addressReceiver amount fee => ∀ account, s.wallet.accounts[index]? = some account →
    ∀ tx ∈ account.pendingTransactions ++ account.confirmedTransactions,
      ¬account.Repeats addressReceiver amount fee tx
  | txMessage _ => True
  | blockMessage _ => True

instance (s : NodeWallet) (call : WalletCall) : Decidable (call.Unspent s) :=
  match call with
  | .makeTransaction index _ amount fee => inferInstanceAs (Decidable (∀ account ∈ s.wallet.accounts[index]?,
      ∀ held ∈ holdings (selection (amount.toInt + fee.toInt) 0 account.utxoSet),
      ∀ tx ∈ account.pendingTransactions, tx ∈ s.madeBy index → outpointOf held ∉ tx.outpoints))
  | .txMessage payload =>
    match decoded : Transaction.unmarshalling payload 0 with
    | .error _ => isTrue fun _ _ same => by cases decoded.symm.trans same
    | .ok (tx, _) => decidable_of_iff (s.wallet.accountsPoisoned = false → ∀ account ∈ s.wallet.accounts,
        tx ∉ account.pendingTransactions → involves account.address tx.txOut → tx ∉ account.confirmedTransactions) (by
      refine ⟨fun unspent _ _ same => ?_, fun unspent => unspent _ _ decoded⟩
      cases decoded.symm.trans same
      exact unspent)
  | .blockMessage _ => inferInstanceAs (Decidable True)

instance (account : SpendingAccount) (addressReceiver : String) (amount fee : Int64) (tx : Transaction) :
    Decidable (account.Repeats addressReceiver amount fee tx) :=
  match selected : BitcoinNode.getUtxosForAmount (amount + fee) account.utxoSet 0 with
  | .error _ => isFalse (by
    rintro ⟨_, _, selected', _⟩
    cases selected.symm.trans selected')
  | .ok utxosToSpend =>
    match generated :
      Transaction.generateUnsignedTransaction addressReceiver account.address amount fee utxosToSpend with
    | .error _ => isFalse (by
      rintro ⟨_, _, selected', generated', _⟩
      cases selected.symm.trans selected'
      cases generated.symm.trans generated')
    | .ok unsigned => decidable_of_iff (tx.outpoints = unsigned.outpoints ∧ tx.txOut = unsigned.txOut) (by
      refine ⟨fun same => ⟨_, _, selected, generated, same⟩, ?_⟩
      rintro ⟨_, _, selected', generated', same⟩
      cases selected.symm.trans selected'
      cases generated.symm.trans generated'
      exact same)

instance (s : NodeWallet) (call : WalletCall) : Decidable (call.Unrepeated s) :=
  match call with
  | .makeTransaction index addressReceiver amount fee =>
    inferInstanceAs (Decidable (∀ account ∈ s.wallet.accounts[index]?,
      ∀ tx ∈ account.pendingTransactions ++ account.confirmedTransactions,
        ¬account.Repeats addressReceiver amount fee tx))
  | .txMessage _ => inferInstanceAs (Decidable True)
  | .blockMessage _ => inferInstanceAs (Decidable True)

theorem SpendingAccount.signed_repeats {account : SpendingAccount} {addressReceiver : String}
    {amount fee : Int64} {tx : Transaction}
    (signed : account.signedTransaction addressReceiver amount fee = .ok tx) :
    account.Repeats addressReceiver amount fee tx := by
  obtain ⟨value, utxosToSpend, unsigned, added, _, selected, generated, signs⟩ := signed_transaction_steps signed
  obtain ⟨kept, sameOutputs⟩ := Transaction.sign_eq_ok signs
  rw [← checked_add_eq_add added] at selected
  exact ⟨utxosToSpend, unsigned, selected, generated, kept, sameOutputs⟩

theorem Account.announce_staged (account : Account) (tx : Transaction) (outputs : List TxOut)
    (made : List Transaction) :
    (account.announce tx outputs).staged made =
      if tx ∉ account.pendingTransactions ∧ involves account.address outputs then
        (account.staged made).hear tx
      else account.staged made := by
  rw [announce]
  split_ifs <;> rfl

/-- What holds of an account and survives each transaction that is confirmed survives a block. -/
theorem Account.confirm_all_staged {P : Staged Transaction → Prop}
    (closed : ∀ s s', Staged.Settles s s' → P s → P s') {account : Account} {made : List Transaction}
    (holds : P (account.staged made)) (txn : List Transaction) : P ((account.confirmAll txn).staged made) := by
  induction txn generalizing account with
  | nil => exact holds
  | cons tx rest ih =>
    apply @ih (account.confirm tx)
    by_cases pending : tx ∈ account.pendingTransactions
    · obtain ⟨front, moved, back, split, _, _, confirmed⟩ := confirm_pending pending
      rw [confirmed]
      exact closed _ _ ⟨front, moved, back, split, rfl⟩ holds
    · rwa [confirm_other pending]

namespace NodeWallet

variable {s : NodeWallet}

theorem block_message_staged {P : Staged Transaction → Prop}
    (closed : ∀ s s', Staged.Settles s s' → P s → P s')
    (holds : ∀ index (account : SpendingAccount), s.wallet.accounts[index]? = some account →
      P (account.toAccount.staged (s.madeBy index))) (call : BlockCall) {index : Nat}
    {account : SpendingAccount}
    (stored : ((WalletCall.blockMessage call).step s).wallet.accounts[index]? = some account) :
    P (account.toAccount.staged (s.madeBy index)) := by
  obtain ⟨before, here, there⟩ := with_node_account stored
  obtain ⟨loaded, txn, lists, confirmed⟩ := handle_block_message_lists call.payload call.order s.node
  rw [BlockCall.step, confirmed, List.getElem?_map, Option.map_eq_some_iff] at there
  obtain ⟨middle, placed, after⟩ := there
  have same : before.toAccount.SameLists middle := by
    obtain ⟨length, each⟩ := List.forall₂_iff_get.mp lists
    obtain ⟨bound, rfl⟩ := List.getElem?_eq_some_iff.mp placed
    have listed : s.node.accounts[index]? = some before.toAccount := by
      rw [node, List.getElem?_map, here]
      rfl
    obtain ⟨bound', read⟩ := List.getElem?_eq_some_iff.mp listed
    rw [← read]
    exact each index bound' bound
  rw [← after]
  refine Account.confirm_all_staged closed ?_ txn
  rw [Account.staged, same.1, same.2]
  exact holds index before here

/-- A transaction that is read is announced to every account, anything else changes nothing. -/
theorem tx_message_cases (s : NodeWallet) (payload : List UInt8) :
    (∃ tx stop, Transaction.unmarshalling payload 0 = .ok (tx, stop) ∧ s.wallet.accountsPoisoned = false ∧
      ((WalletCall.txMessage payload).step s).wallet.accounts = s.wallet.accounts.map fun account =>
        { account with toAccount := account.toAccount.announce tx tx.txOut }) ∨
    (∀ tx stop, Transaction.unmarshalling payload 0 = .ok (tx, stop) → s.wallet.accountsPoisoned = true) ∧
      ((WalletCall.txMessage payload).step s).wallet.accounts = s.wallet.accounts := by
  by_cases read : ∃ tx stop, Transaction.unmarshalling payload 0 = .ok (tx, stop) ∧
      s.wallet.accountsPoisoned = false
  · obtain ⟨tx, stop, decoded, alive⟩ := read
    refine .inl ⟨tx, stop, decoded, alive, with_node_map ?_⟩
    have announced := handle_tx_message_accounts decoded (s := s.node) alive
    rw [announced]
    simp [node]
  · have dead : ∀ tx stop, Transaction.unmarshalling payload 0 = .ok (tx, stop) →
        s.wallet.accountsPoisoned = true := fun tx stop decoded =>
      Bool.not_eq_false _ ▸ fun alive => read ⟨tx, stop, decoded, alive⟩
    refine .inr ⟨dead, ?_⟩
    have other : s.node.accountsPoisoned = true ∨
        ∀ tx stop, Transaction.unmarshalling payload 0 ≠ .ok (tx, stop) :=
      or_iff_not_imp_left.mpr fun alive tx stop decoded => alive (dead tx stop decoded)
    have same : ((WalletCall.txMessage payload).step s).wallet.accounts =
        s.wallet.accounts.map fun account => { account with toAccount := id account.toAccount } :=
      with_node_map (by rw [handle_tx_message_other other]; rfl)
    rw [same]
    exact List.map_id _

theorem make_transaction_cases {index : Nat} {addressReceiver : String} {amount fee : Int64}
    (succeeds : (WalletCall.makeTransaction index addressReceiver amount fee).Succeeds s) :
    ∃ account tx, s.wallet.accounts[index]? = some account ∧
      account.signedTransaction addressReceiver amount fee = .ok tx ∧
      ((WalletCall.makeTransaction index addressReceiver amount fee).step s).wallet.accounts =
        s.wallet.accounts.set index (account.addTransaction tx) ∧
      ((WalletCall.makeTransaction index addressReceiver amount fee).step s).made =
        s.made ++ [(index, tx)] := by
  obtain ⟨_, index', account, tx, inUse, stored, signed, accounts⟩ :=
    PaymentWallet.make_transaction_eq_ok (Prod.ext succeeds rfl)
  obtain rfl := Option.some.inj inUse
  refine ⟨account, tx, stored, signed, accounts, ?_⟩
  have here : s.wallet.accounts[index]? = some account := stored
  simp [WalletCall.step, here, signed]

theorem step_kept (kept : s.Kept) {call : WalletCall} (succeeds : call.Succeeds s) : (call.step s).Kept := by
  cases call with
  | makeTransaction index addressReceiver amount fee =>
    obtain ⟨account, tx, stored, _, accounts, made⟩ := make_transaction_cases succeeds
    exact (make_transaction_staged stored accounts made kept).mpr ((kept index account stored).make tx)
  | txMessage payload =>
    obtain ⟨tx, stop, _, _, accounts⟩ | ⟨_, accounts⟩ := tx_message_cases s payload
    · intro index account stored
      rw [accounts, List.getElem?_map, Option.map_eq_some_iff] at stored
      obtain ⟨before, here, rfl⟩ := stored
      show ((before.toAccount.announce tx tx.txOut).staged (s.madeBy index)).Kept
      rw [Account.announce_staged]
      split_ifs
      · exact (kept index before here).hear tx
      · exact kept index before here
    · intro index account stored
      exact kept index account (accounts ▸ stored)
  | blockMessage call =>
    intro index account stored
    exact block_message_staged (P := Staged.Kept) (fun _ _ settles => settles.kept) kept call stored

theorem make_transaction_clean (clean : s.Clean) {index : Nat} {addressReceiver : String}
    {amount fee : Int64}
    (succeeds : (WalletCall.makeTransaction index addressReceiver amount fee).Succeeds s) :
    let call := WalletCall.makeTransaction index addressReceiver amount fee
    (call.Unspent s → call.Unrepeated s → (call.step s).Clean) ∧ ((call.step s).Clean → call.Unspent s) := by
  intro call
  obtain ⟨account, tx, stored, signed, accounts, made⟩ := make_transaction_cases succeeds
  obtain ⟨inputs, _, _⟩ := SpendingAccount.signed_transaction_eq_ok signed
  have apartIff (other : Transaction) : tx.Apart other ↔
      ∀ held ∈ holdings (selection (amount.toInt + fee.toInt) 0 account.utxoSet),
        outpointOf held ∉ other.outpoints := by
    rw [Transaction.Apart, Transaction.outpoints, inputs]
    exact List.forall_mem_map
  have one := (make_transaction_staged stored accounts made clean).trans
    (Staged.Clean.make_iff (fun _ _ => Transaction.Apart.symm) (clean index account stored))
  constructor
  · intro unspent unrepeated
    have new := unrepeated account stored tx
    refine one.mpr ⟨fun pending => ?_, fun confirmed => ?_, fun other pending made => ?_⟩
    · exact new (List.mem_append_left _ pending) (SpendingAccount.signed_repeats signed)
    · exact new (List.mem_append_right _ confirmed) (SpendingAccount.signed_repeats signed)
    · exact (apartIff other).mpr fun held selected => unspent account stored held selected other pending made
  · intro after account' stored' held selected other pending made
    obtain rfl := Option.some.inj (stored.symm.trans stored')
    exact (apartIff other).mp ((one.mp after).2.2 other pending made) held selected

theorem tx_message_clean (clean : s.Clean) (kept : s.Kept) (payload : List UInt8) :
    ((WalletCall.txMessage payload).step s).Clean ↔ (WalletCall.txMessage payload).Unspent s := by
  obtain ⟨tx, stop, decoded, alive, accounts⟩ | ⟨dead, accounts⟩ := tx_message_cases s payload
  · have one (index : Nat) (account : SpendingAccount) (stored : s.wallet.accounts[index]? = some account) :
        ((account.toAccount.announce tx tx.txOut).staged (s.madeBy index)).Clean Transaction.Apart ↔
          (tx ∉ account.pendingTransactions → involves account.address tx.txOut →
            tx ∉ account.confirmedTransactions) := by
      rw [Account.announce_staged]
      split_ifs with paid
      · rw [(clean index account stored).hear_iff (kept index account stored) paid.1]
        exact ⟨fun unconfirmed _ _ => unconfirmed, fun unconfirmed => unconfirmed paid.1 paid.2⟩
      · exact iff_of_true (clean index account stored) fun new pays => absurd ⟨new, pays⟩ paid
    constructor
    · intro after tx' stop' decoded' _ account member
      obtain ⟨rfl, _⟩ := Prod.mk.inj (Except.ok.inj (decoded.symm.trans decoded'))
      obtain ⟨index, bound, rfl⟩ := List.getElem_of_mem member
      have stored := List.getElem?_eq_getElem bound
      exact (one index _ stored).mp (after index _ (by rw [accounts, List.getElem?_map, stored]; rfl))
    · intro unspent index account stored
      rw [accounts, List.getElem?_map, Option.map_eq_some_iff] at stored
      obtain ⟨before, here, rfl⟩ := stored
      exact (one index before here).mpr (unspent tx stop decoded alive before (List.mem_of_getElem? here))
  · refine iff_of_true (fun index account stored => clean index account (accounts ▸ stored)) ?_
    intro tx stop decoded alive
    rw [dead tx stop decoded] at alive
    cases alive

/-- From clean lists, a call that neither repeats a payment nor spends what is spent leaves clean lists,
and one that spends what is spent does not. -/
theorem step_clean (clean : s.Clean) (kept : s.Kept) {call : WalletCall} (succeeds : call.Succeeds s) :
    (call.Unspent s → call.Unrepeated s → (call.step s).Clean) ∧ ((call.step s).Clean → call.Unspent s) := by
  cases call with
  | makeTransaction => exact make_transaction_clean clean succeeds
  | txMessage payload =>
    exact ⟨fun unspent _ => (tx_message_clean clean kept payload).mpr unspent,
      (tx_message_clean clean kept payload).mp⟩
  | blockMessage call =>
    refine ⟨fun _ _ index account stored => ?_, fun _ => trivial⟩
    exact block_message_staged (P := Staged.Clean Transaction.Apart) (fun _ _ settles => settles.clean) clean
      call stored

end NodeWallet

/-- From empty lists, in a run of successful payments and of messages that neither repeats a payment nor
spends what is spent, the lists are clean throughout. In a run where they are, nothing that is spent was
spent again. -/
theorem pending_lists_run {s : NodeWallet} (fresh : s.made = [])
    (start : ∀ account ∈ s.wallet.accounts,
      account.pendingTransactions = [] ∧ account.confirmedTransactions = [])
    {calls : List WalletCall} (succeed : EachCall WalletCall.step (fun s call => call.Succeeds s) s calls) :
    (EachCall WalletCall.step (fun s call => call.Unspent s ∧ call.Unrepeated s) s calls →
      Throughout WalletCall.step NodeWallet.Clean s calls) ∧
    (Throughout WalletCall.step NodeWallet.Clean s calls →
      EachCall WalletCall.step (fun s call => call.Unspent s) s calls) := by
  have empty : s.Clean ∧ s.Kept := by
    have each (index : Nat) (account : SpendingAccount) (stored : s.wallet.accounts[index]? = some account) :
        account.toAccount.staged (s.madeBy index) = ⟨[], [], []⟩ := by
      obtain ⟨pending, confirmed⟩ := start account (List.mem_of_getElem? stored)
      rw [Account.staged, pending, confirmed, NodeWallet.madeBy, fresh]
      rfl
    constructor <;> intro index account stored <;> rw [each index account stored]
    · exact ⟨List.nodup_nil, nofun, nofun⟩
    · exact nofun
  obtain ⟨clean, kept⟩ := empty
  clear start fresh
  induction calls generalizing s with
  | nil => exact ⟨fun _ => throughout_nil.mpr clean, fun _ => eachCall_nil⟩
  | cons call calls ih =>
    obtain ⟨succeeds, later⟩ := eachCall_cons.mp succeed
    obtain ⟨enough, needed⟩ := NodeWallet.step_clean clean kept succeeds
    have kept' := NodeWallet.step_kept kept succeeds
    rw [throughout_cons, eachCall_cons, eachCall_cons]
    constructor
    · rintro ⟨⟨unspent, unrepeated⟩, rest⟩
      have clean' := enough unspent unrepeated
      exact ⟨clean, (ih later clean' kept').1 rest⟩
    · rintro ⟨_, rest⟩
      have clean' : (call.step s).Clean := rest [] List.nil_prefix
      exact ⟨needed clean', (ih later clean' kept').2 rest⟩

end Run

/-- The wallet with its one key, before any payment. -/
def OneKey.nodeWallet : NodeWallet := ⟨.initial, wallet p2pkh, []⟩

def OneKey.pay : WalletCall := .makeTransaction 0 receiver 5 2

theorem OneKey.pays_twice :
    let _ := OneKey.crates
    (pay.Succeeds nodeWallet ∧ pay.Succeeds (pay.step nodeWallet)) ∧
      ¬∀ account ∈ (execute WalletCall.step nodeWallet [pay, pay]).wallet.accounts,
        account.pendingTransactions.Nodup := by
  decide +kernel

def OneKey.received : Transaction := .mint 1 [.new 10 p2pkh]

def OneKey.payment : Transaction :=
  match @SpendingAccount.signedTransaction crates (account p2pkh) receiver 5 2 with
  | .ok tx => tx
  | .error _ => received

/-- A block of one transaction. What was received is visited before what was paid. -/
def OneKey.mining (previous : UInt8) (tx : Transaction) : WalletCall :=
  let _ := crates
  .blockMessage ⟨(Block.mined (U8Array.replicate 32 previous) tx.hash [tx]).marshalling,
    fun utxoSet => [received, payment].filterMap fun tx => (utxoSet.get tx.hash).map fun utxo => (tx.hash, utxo)⟩

/-- The payment is echoed. A block brings ten satoshis more and the same is paid again, now out of these. Then a
block confirms the first payment. -/
def OneKey.paying : List WalletCall :=
  [pay, .txMessage payment.marshalling, mining 7 received, pay, mining 8 payment]

theorem OneKey.paying_met :
    let _ := crates
    let s := (mining 7 received).step ((WalletCall.txMessage payment.marshalling).step (pay.step nodeWallet))
    let s' := execute WalletCall.step nodeWallet paying
    (pay.Succeeds nodeWallet ∧ pay.Unspent nodeWallet ∧ pay.Unrepeated nodeWallet) ∧
      (WalletCall.txMessage payment.marshalling).Unspent (pay.step nodeWallet) ∧
      (pay.Succeeds s ∧ pay.Unspent s ∧ pay.Unrepeated s) ∧
      s'.wallet.accounts.map (·.pendingTransactions.map Transaction.outpoints) = [[[⟨received.hash, 0⟩]]] ∧
      s'.wallet.accounts.map (·.confirmedTransactions) = [[payment]] := by
  decide +kernel

/-- What is paid the second time is pending then, and what was paid first is confirmed. -/
theorem pending_lists_run_paying :
    let _ := OneKey.crates
    let s := execute WalletCall.step OneKey.nodeWallet OneKey.paying
    Throughout WalletCall.step NodeWallet.Clean OneKey.nodeWallet OneKey.paying ∧
      s.wallet.accounts.map (·.pendingTransactions.map Transaction.outpoints) = [[[⟨OneKey.received.hash, 0⟩]]] ∧
      s.wallet.accounts.map (·.confirmedTransactions) = [[OneKey.payment]] := by
  refine ⟨?_, OneKey.paying_met.2.2.2⟩
  let crates := OneKey.crates
  obtain ⟨⟨first, unspent, unrepeated⟩, echoed, ⟨second, unspent', unrepeated'⟩, _⟩ := OneKey.paying_met
  have empty : ∀ account ∈ OneKey.nodeWallet.wallet.accounts,
      account.pendingTransactions = [] ∧ account.confirmedTransactions = [] := by
    intro account member
    obtain rfl := List.mem_singleton.mp member
    exact ⟨rfl, rfl⟩
  have succeed : EachCall WalletCall.step (fun s call => call.Succeeds s) OneKey.nodeWallet OneKey.paying := by
    rw [OneKey.paying, eachCall_cons, eachCall_cons, eachCall_cons, eachCall_cons, eachCall_cons]
    exact ⟨first, trivial, trivial, second, trivial, eachCall_nil⟩
  have mined (s : NodeWallet) (previous : UInt8) (tx : Transaction) :
      (OneKey.mining previous tx).Unspent s ∧ (OneKey.mining previous tx).Unrepeated s := ⟨trivial, trivial⟩
  refine (pending_lists_run rfl empty succeed).1 ?_
  rw [OneKey.paying, eachCall_cons, eachCall_cons, eachCall_cons, eachCall_cons, eachCall_cons]
  exact ⟨⟨unspent, unrepeated⟩, ⟨echoed, trivial⟩, mined _ _ _, ⟨unspent', unrepeated'⟩, mined _ _ _, eachCall_nil⟩

/-- The same payment twice before a block: the signature is the same, so the same transaction is pending
twice. -/
theorem pending_lists_run_twice :
    let _ := OneKey.crates
    OneKey.pay.Succeeds OneKey.nodeWallet ∧ OneKey.pay.Succeeds (OneKey.pay.step OneKey.nodeWallet) ∧
      ¬NodeWallet.Clean (execute WalletCall.step OneKey.nodeWallet [OneKey.pay, OneKey.pay]) := by
  intro crates
  have once {s : NodeWallet} (clean : s.Clean) :
      ∀ account ∈ s.wallet.accounts, account.pendingTransactions.Nodup := by
    intro account member
    obtain ⟨index, bound, rfl⟩ := List.getElem_of_mem member
    exact (clean index _ (List.getElem?_eq_getElem bound)).once
  exact ⟨OneKey.pays_twice.1.1, OneKey.pays_twice.1.2, fun clean => OneKey.pays_twice.2 (once clean)⟩

end BitcoinNode
