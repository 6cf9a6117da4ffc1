import BitcoinNode.MoneyConserved

/-! Payments that fail. Every error before the broadcast leaves the accounts alone; the broadcast
comes after the transaction was added, and fails if no peer is left. -/
namespace BitcoinNode

section Failed

variable [WalletCrates]

namespace PaymentWallet

/-- The payment is signed: nothing before the broadcast refuses it. -/
def Signs (wallet : PaymentWallet) (addressReceiver : String) (amount fee : Int64) : Prop :=
  wallet.accountsPoisoned = false ∧ validateTransactionData amount fee = .ok () ∧
    ∃ index account tx, wallet.currentAccountIndex = some index ∧
      wallet.accounts[index]? = some account ∧
      account.signedTransaction addressReceiver amount fee = .ok tx

theorem inv_mershalling_ok (inventories : List Inventory) : ∃ bytes, invMershalling inventories = .ok bytes := by
  obtain ⟨name, padded⟩ := @command_name_to_bytes_of_fits "inv" (by decide +kernel)
  simp only [invMershalling, HeaderMessage.toLeBytes, padded]
  exact ⟨_, rfl⟩

theorem broadcast_tx_fails (rawTx : Hash) (nodesSender : List NodeSender) :
    ((broadcastTx rawTx).run nodesSender).1 =
      if nodesSender.any NodeSender.open_ then .ok () else Outcome.fail (.ThreadChannelError "All nodes failed") := by
  obtain ⟨bytes, built⟩ := inv_mershalling_ok [.newTx rawTx]
  rw [broadcastTx, built]
  rfl

variable {wallet : PaymentWallet} {addressReceiver : String} {amount fee : Int64}

theorem make_transaction_signed (signs : wallet.Signs addressReceiver amount fee) :
    ∃ index account tx, wallet.accounts[index]? = some account ∧
      ((makeTransaction addressReceiver amount fee).run wallet).2.accounts =
        wallet.accounts.set index (account.addTransaction tx) ∧
      ((makeTransaction addressReceiver amount fee).run wallet).1 =
        if wallet.nodesSender.any NodeSender.open_ then .ok ()
        else Outcome.fail (NodeCustomErrors.ThreadChannelError "All nodes failed").fmt := by
  obtain ⟨alive, valid, index, account, tx, inUse, stored, signed⟩ := signs
  have made : (SpendingAccount.makeTransaction addressReceiver amount fee).run account =
      (.ok tx, account.addTransaction tx) := by
    rw [SpendingAccount.makeTransaction, Proc.run_bind_ok _ (Proc.run_get account), signed]
    rfl
  have paid : (accountTransaction index addressReceiver amount fee).run wallet =
      (.ok tx, { wallet with accounts := wallet.accounts.set index (account.addTransaction tx) }) := by
    simp only [accountTransaction, alive, Bool.false_eq_true, if_false, stored, made]
  refine ⟨index, account, tx, stored, ?_⟩
  have checked : (Proc.lift (validateTransactionData amount fee) : Proc PaymentWallet String Unit).run wallet =
      (.ok (), wallet) := by rw [valid, Proc.run_lift]
  rw [makeTransaction, Proc.run_bind_ok _ (Proc.run_get wallet)]
  simp only [inUse]
  rw [Proc.run_bind_ok _ checked, Proc.run_bind_ok _ paid]
  refine ⟨rfl, ?_⟩
  simp only [broadcast_tx_fails]
  split_ifs <;> rfl

theorem account_transaction_refused (index : Nat) (refused : wallet.accountsPoisoned = false →
      ∀ account tx, wallet.accounts[index]? = some account →
        account.signedTransaction addressReceiver amount fee ≠ .ok tx) :
    ∃ e wallet', (accountTransaction index addressReceiver amount fee).run wallet = (.error e, wallet') ∧
      wallet'.accounts = wallet.accounts := by
  cases dead : wallet.accountsPoisoned with
  | true => exact ⟨_, wallet, by simp only [accountTransaction, dead, if_true]; rfl, rfl⟩
  | false =>
    rcases stored : wallet.accounts[index]? with _ | account
    · refine ⟨.panic, { wallet with accountsPoisoned := true }, ?_, rfl⟩
      simp only [accountTransaction, dead, Bool.false_eq_true, if_false, stored]
      rfl
    rcases signed : account.signedTransaction addressReceiver amount fee with e | tx
    · have made : (SpendingAccount.makeTransaction addressReceiver amount fee).run account =
          (.error e, account) := by
        rw [SpendingAccount.makeTransaction, Proc.run_bind_ok _ (Proc.run_get account), signed]
        rfl
      simp only [accountTransaction, dead, Bool.false_eq_true, if_false, stored, made]
      cases e <;> exact ⟨_, _, rfl, rfl⟩
    · exact absurd signed (refused dead account tx stored)

theorem make_transaction_refused (refused : ¬wallet.Signs addressReceiver amount fee) :
    ((makeTransaction addressReceiver amount fee).run wallet).2.accounts = wallet.accounts := by
  rw [makeTransaction, Proc.run_bind_ok _ (Proc.run_get wallet)]
  rcases inUse : wallet.currentAccountIndex with _ | index
  · rfl
  simp only
  rcases valid : validateTransactionData amount fee with e | _
  · rfl
  obtain ⟨e, wallet', failed, same⟩ := account_transaction_refused index
    fun alive account tx stored signed => refused ⟨alive, valid, index, account, tx, inUse, stored, signed⟩
  rw [Proc.run_bind_ok _ (Proc.run_lift ..), Proc.run_bind_error _ failed]
  exact same

/-- A payment that returns an error leaves the accounts as they were, exactly when it was not signed
or some peer can still be reached. -/
theorem failed_payment_iff (wallet : PaymentWallet) (addressReceiver : String) (amount fee : Int64) :
    ((∃ text, ((makeTransaction addressReceiver amount fee).run wallet).1 = .error (.err text)) →
        ((makeTransaction addressReceiver amount fee).run wallet).2.accounts = wallet.accounts) ↔
      wallet.nodesSender.any NodeSender.open_ ∨ ¬wallet.Signs addressReceiver amount fee := by
  by_cases signs : wallet.Signs addressReceiver amount fee
  · obtain ⟨index, account, tx, stored, accounts, result⟩ := make_transaction_signed signs
    have bound := (List.getElem?_eq_some_iff.mp stored).1
    have grown : wallet.accounts.set index (account.addTransaction tx) ≠ wallet.accounts := by
      intro same
      have here := congrArg (·[index]?) same
      rw [List.getElem?_set_self bound, stored] at here
      have pending := congrArg (List.length ·.pendingTransactions) (Option.some.inj here)
      simp [SpendingAccount.addTransaction] at pending
    rw [accounts, result]
    constructor
    · intro unchanged
      by_contra closed
      rw [not_or] at closed
      exact grown (unchanged ⟨_, if_neg closed.1⟩)
    · rintro (alive | refused) ⟨text, failed⟩
      · rw [if_pos alive] at failed
        cases failed
      · exact absurd signs refused
  · exact iff_of_true (fun _ => make_transaction_refused signs) (.inr signs)

end PaymentWallet

end Failed

/-- The only peer is gone: the payment fails, and is pending all the same. -/
theorem PaymentWallet.failed_payment_alone :
    let _ := OneKey.crates
    let wallet := { OneKey.wallet OneKey.p2pkh with nodesSender := [⟨false, []⟩] }
    let ran := (makeTransaction OneKey.receiver 5 2).run wallet
    ran.1 = .error (.err "Can not send elements to channel Error: All nodes failed") ∧
      wallet.accounts.map (·.pendingTransactions.length) = [0] ∧
      ran.2.accounts.map (·.pendingTransactions.length) = [1] := by
  decide +kernel

end BitcoinNode
