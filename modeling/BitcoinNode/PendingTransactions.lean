import BitcoinNode.Handlers
import BitcoinNode.UnspentOutputs

/-! Transactions announced by peers. One that pays an account becomes pending there, unless it is
pending already, and a block that holds it moves it to the confirmed ones. -/
namespace BitcoinNode

def Account.SameLists (account account' : Account) : Prop :=
  account'.pendingTransactions = account.pendingTransactions ∧
    account'.confirmedTransactions = account.confirmedTransactions

theorem Account.SameLists.refl (account : Account) : account.SameLists account := ⟨rfl, rfl⟩

section Announced

variable [Crates]

/-- The text of an error stands for the address. -/
def TxOut.associatedAddress (out : TxOut) : Checked String := do
  match ← Outcome.attempt out.getAddress with
  | .ok address => return address
  | .error text => return text

def Account.addPending (tx : Transaction) (account : Account) : Account :=
  { account with pendingTransactions := account.pendingTransactions ++ [tx] }

/-- One account after the other; where an address panics, the accounts before are updated. -/
def TxOut.involveAccounts (out : TxOut) (tx : Transaction) : List Account → Checked Unit × List Account
  | [] => (.ok (), [])
  | account :: rest =>
    if tx ∈ account.pendingTransactions then
      ((involveAccounts out tx rest).1, account :: (involveAccounts out tx rest).2)
    else
      match out.associatedAddress with
      | .error e => (.error e, account :: rest)
      | .ok txAsociateAddress =>
        ((involveAccounts out tx rest).1,
          (if txAsociateAddress = account.address then account.addPending tx else account) ::
            (involveAccounts out tx rest).2)

/-- The accounts are only read-locked, so a panic does not poison them. -/
def TxOut.involvesUserAccount (out : TxOut) (tx : Transaction) : Handler Unit :=
  ⟨fun s =>
    if s.accountsPoisoned then (Outcome.fail poisoned, s)
    else ((out.involveAccounts tx s.accounts).1.widen,
      { s with accounts := (out.involveAccounts tx s.accounts).2 })⟩

def Transaction.checkIfTxInvolvesUserAccount (tx : Transaction) : Handler Unit :=
  Proc.each tx.txOut fun txOut => txOut.involvesUserAccount tx

def handleTxMessage (payload : List UInt8) : Handler Unit := do
  let (tx, _) ← Proc.lift (Outcome.mapErr .UnmarshallingError (Transaction.unmarshalling payload 0))
  tx.checkIfTxInvolvesUserAccount

/-- One of the outputs, before any that panics, is taken to pay the address. -/
def involves (address : String) : List TxOut → Bool
  | [] => false
  | out :: rest =>
    match out.associatedAddress with
    | .ok txAsociateAddress => txAsociateAddress = address || involves address rest
    | .error _ => false

def Account.announce (tx : Transaction) (outputs : List TxOut) (account : Account) : Account :=
  if tx ∉ account.pendingTransactions ∧ involves account.address outputs then account.addPending tx
  else account

@[simp] theorem Account.announce_address (tx : Transaction) (outputs : List TxOut) (account : Account) :
    (account.announce tx outputs).address = account.address := by
  rw [announce]
  split_ifs <;> rfl

theorem Account.announce_pending {tx : Transaction} {account : Account}
    (pending : tx ∈ account.pendingTransactions) (outputs : List TxOut) :
    account.announce tx outputs = account := if_neg fun both => both.1 pending

theorem Account.announce_nil (tx : Transaction) (account : Account) : account.announce tx [] = account :=
  if_neg fun both => nomatch both.2

/-- An account that is added to has the transaction then, so further outputs change nothing. -/
theorem Account.announce_cons {tx : Transaction} {out : TxOut} {address : String}
    (read : out.associatedAddress = .ok address) (outputs : List TxOut) (account : Account) :
    (account.announce tx [out]).announce tx outputs = account.announce tx (out :: outputs) := by
  by_cases pending : tx ∈ account.pendingTransactions
  · rw [announce_pending pending, announce_pending pending, announce_pending pending]
  by_cases pays : address = account.address
  · have added : account.announce tx [out] = account.addPending tx :=
      if_pos ⟨pending, by simp [involves, read, pays]⟩
    have added' : account.announce tx (out :: outputs) = account.addPending tx :=
      if_pos ⟨pending, by simp [involves, read, pays]⟩
    rw [added, added', announce_pending (by simp [addPending])]
  · have same : account.announce tx [out] = account := if_neg fun both => by
      simpa [involves, read, pays] using both.2
    rw [same, announce, announce]
    simp [involves, read, pays]

theorem TxOut.involve_accounts_read {out : TxOut} {address : String}
    (read : out.associatedAddress = .ok address) (tx : Transaction) (accounts : List Account) :
    out.involveAccounts tx accounts = (.ok (), accounts.map (Account.announce tx [out])) := by
  induction accounts with
  | nil => rfl
  | cons account rest ih =>
    rw [involveAccounts, ih]
    by_cases pending : tx ∈ account.pendingTransactions
    · simp [pending, Account.announce]
    · by_cases pays : address = account.address <;>
        simp [pending, read, Account.announce, involves, pays]

/-- An address that panics is only left unread if every account has the transaction. -/
theorem TxOut.involve_accounts_panic {out : TxOut} {e : Failure Empty}
    (panics : out.associatedAddress = .error e) (tx : Transaction) (accounts : List Account) :
    (out.involveAccounts tx accounts).2 = accounts ∧
      ((out.involveAccounts tx accounts).1 = .ok () →
        ∀ account ∈ accounts, tx ∈ account.pendingTransactions) := by
  induction accounts with
  | nil => exact ⟨rfl, fun _ _ none => absurd none List.not_mem_nil⟩
  | cons account rest ih =>
    rw [involveAccounts]
    by_cases pending : tx ∈ account.pendingTransactions
    · rw [if_pos pending]
      exact ⟨congrArg (account :: ·) ih.1, fun read => List.forall_mem_cons.mpr ⟨pending, ih.2 read⟩⟩
    · rw [if_neg pending, panics]
      exact ⟨rfl, nofun⟩

theorem each_involves {tx : Transaction} (outputs : List TxOut) {s : NodeDataPointers}
    (alive : s.accountsPoisoned = false) :
    ((Proc.each outputs fun txOut => txOut.involvesUserAccount tx).run s).2 =
      { s with accounts := s.accounts.map (Account.announce tx outputs) } := by
  induction outputs generalizing s with
  | nil =>
    have same : s.accounts.map (Account.announce tx []) = s.accounts :=
      (List.map_congr_left fun account _ => Account.announce_nil tx account).trans (List.map_id _)
    rw [same]
    rfl
  | cons out rest ih =>
    have here : (out.involvesUserAccount tx).run s = ((out.involveAccounts tx s.accounts).1.widen,
        { s with accounts := (out.involveAccounts tx s.accounts).2 }) := by
      simp only [TxOut.involvesUserAccount, alive, Bool.false_eq_true, if_false]
    rcases read : out.associatedAddress with e | address
    · have unread : s.accounts.map (Account.announce tx (out :: rest)) = s.accounts :=
        (List.map_congr_left fun account _ => if_neg fun both => by
          simpa [involves, read] using both.2).trans (List.map_id _)
      obtain ⟨same, every⟩ := TxOut.involve_accounts_panic read tx s.accounts
      rw [same] at here
      rw [unread]
      rcases result : (out.involveAccounts tx s.accounts).1 with e | _ <;> rw [result] at here
      · rw [Proc.each, Proc.run_bind_error _ here]
      · have held : s.accounts.map (Account.announce tx rest) = s.accounts :=
          (List.map_congr_left fun account member => Account.announce_pending (every result account member) _).trans
            (List.map_id _)
        rw [Proc.each, Proc.run_bind_ok _ here, ih alive, held]
    · rw [TxOut.involve_accounts_read read] at here
      have others := ih (s := { s with accounts := s.accounts.map (Account.announce tx [out]) }) alive
      rw [Proc.each, Proc.run_bind_ok _ here]
      apply others.trans
      simp only [List.map_map, Function.comp_def, Account.announce_cons read]

/-- The announced transaction is added to the accounts that it pays and that do not have it. -/
theorem handle_tx_message_accounts {payload : List UInt8} {tx : Transaction} {stop : Nat}
    (decoded : Transaction.unmarshalling payload 0 = .ok (tx, stop)) {s : NodeDataPointers}
    (alive : s.accountsPoisoned = false) :
    ((handleTxMessage payload).run s).2 =
      { s with accounts := s.accounts.map (Account.announce tx tx.txOut) } := by
  rw [handleTxMessage, decoded]
  exact each_involves tx.txOut alive

theorem handle_tx_message_other {payload : List UInt8} {s : NodeDataPointers}
    (other : s.accountsPoisoned = true ∨ ∀ tx stop, Transaction.unmarshalling payload 0 ≠ .ok (tx, stop)) :
    ((handleTxMessage payload).run s).2 = s := by
  rw [handleTxMessage]
  rcases decoded : Transaction.unmarshalling payload 0 with e | ⟨tx, stop⟩
  · cases e <;> rfl
  · have dead := other.resolve_right fun none => none tx stop decoded
    show ((Proc.each tx.txOut fun txOut => txOut.involvesUserAccount tx).run s).2 = s
    cases tx.txOut with
    | nil => rfl
    | cons out rest =>
      have here : (out.involvesUserAccount tx).run s = (Outcome.fail poisoned, s) := by
        simp only [TxOut.involvesUserAccount, dead, if_true]
      rw [Proc.each, Proc.run_bind_error _ here]

/-- The transactions of a block one after the other. -/
def Account.confirmAll (txn : List Transaction) (account : Account) : Account :=
  txn.foldl (fun account tx => account.confirm tx) account

theorem Block.run_contains_pending_tx (b : Block) {s : NodeDataPointers} (alive : s.accountsPoisoned = false) :
    b.containsPendingTx.run s = (.ok (), { s with accounts := s.accounts.map (Account.confirmAll b.txn) }) := by
  rw [Block.containsPendingTx]
  induction b.txn generalizing s with
  | nil =>
    have same : s.accounts.map (Account.confirmAll []) = s.accounts := List.map_id _
    rw [same]
    rfl
  | cons tx rest ih =>
    have others := ih (s := { s with accounts := s.accounts.map (Account.confirm tx) }) alive
    have here : (do
        let s ← Proc.get
        if s.accountsPoisoned then Proc.lift (Outcome.fail poisoned)
        else Proc.modify fun s => { s with accounts := s.accounts.map (Account.confirm tx) } : Handler Unit).run s =
          (.ok (), { s with accounts := s.accounts.map (Account.confirm tx) }) := by
      rw [Proc.run_bind_ok _ (Proc.run_get s), if_neg (Bool.eq_false_iff.mp alive)]
      rfl
    rw [Proc.each, Proc.run_bind_ok _ here]
    apply others.trans
    simp only [List.map_map, Function.comp_def]
    rfl

theorem Account.confirm_other {tx : Transaction} {account : Account} (other : tx ∉ account.pendingTransactions) :
    account.confirm tx = account := if_neg other

theorem Account.confirm_pending {tx : Transaction} {account : Account}
    (pending : tx ∈ account.pendingTransactions) :
    ∃ front moved back, account.pendingTransactions = front ++ moved :: back ∧ moved.hash = tx.hash ∧
      (∀ t ∈ front, t.hash ≠ tx.hash) ∧
      account.confirm tx = { account with
        pendingTransactions := front ++ back
        confirmedTransactions := account.confirmedTransactions ++ [moved] } := by
  rw [confirm, if_pos pending]
  rcases found : account.pendingTransactions.findIdx? (·.hash == tx.hash) with _ | i
  · have none := List.findIdx?_eq_none_iff.mp found tx pending
    simp at none
  · obtain ⟨bound, same, before⟩ := List.findIdx?_eq_some_iff_getElem.mp found
    refine ⟨account.pendingTransactions.take i, account.pendingTransactions[i],
      account.pendingTransactions.drop (i + 1), ?_, beq_iff_eq.mp same, fun t front => ?_, ?_⟩
    · rw [← List.drop_eq_getElem_cons bound, List.take_append_drop]
    · obtain ⟨j, below, rfl⟩ := List.getElem_of_mem front
      rw [List.getElem_take]
      rw [List.length_take] at below
      exact fun same => before j (by omega) (beq_iff_eq.mpr same)
    · simp only [found, List.getElem?_eq_getElem bound, Option.toList_some, List.eraseIdx_eq_take_drop_succ]

theorem set_all_utxos_lists (visit : List (Hash × UtxoTuple)) (accounts : List Account) :
    List.Forall₂ Account.SameLists accounts (setAllUtxos visit accounts).2 := by
  induction accounts with
  | nil => exact .nil
  | cons account rest ih =>
    rw [setAllUtxos]
    rcases loaded : account.setUtxos visit with e | account'
    · exact List.forall₂_same.mpr fun other _ => Account.SameLists.refl other
    · obtain ⟨utxos, _, same⟩ := Outcome.bind_eq_ok.mp loaded
      cases same
      exact .cons ⟨rfl, rfl⟩ ih

theorem update_accounts_utxo_set_lists (order : UtxoSet → List (Hash × UtxoTuple)) (s : NodeDataPointers) :
    (∃ e accounts dead, List.Forall₂ Account.SameLists s.accounts accounts ∧
      (updateAccountsUtxoSet order).run s = (.error e, { s with accounts, accountsPoisoned := dead })) ∨
    ∃ accounts, s.accountsPoisoned = false ∧ List.Forall₂ Account.SameLists s.accounts accounts ∧
      (updateAccountsUtxoSet order).run s = (.ok (), { s with accounts }) := by
  have lists := set_all_utxos_lists (order s.blockchain.utxoSet) s.accounts
  cases dead : s.accountsPoisoned with
  | true =>
    refine .inl ⟨.err poisoned, s.accounts, true, List.forall₂_same.mpr fun account _ => .refl account, ?_⟩
    simp only [updateAccountsUtxoSet, dead, if_true]
    rw [← dead]
    rfl
  | false =>
    rcases set : setAllUtxos (order s.blockchain.utxoSet) s.accounts with ⟨e | _, accounts⟩ <;> rw [set] at lists
    · refine .inl ⟨e.widen, accounts, true, lists, ?_⟩
      simp only [updateAccountsUtxoSet, dead, Bool.false_eq_true, if_false, set]
    · refine .inr ⟨accounts, rfl, lists, ?_⟩
      simp only [updateAccountsUtxoSet, dead, Bool.false_eq_true, if_false, set]

theorem handle_block_message_lists (payload : List UInt8) (order : UtxoSet → List (Hash × UtxoTuple))
    (s : NodeDataPointers) :
    ∃ loaded txn, List.Forall₂ Account.SameLists s.accounts loaded ∧
      ((handleBlockMessage payload order).run s).2.accounts = loaded.map (Account.confirmAll txn) := by
  have unconfirmed {accounts loaded : List Account} (lists : List.Forall₂ Account.SameLists accounts loaded) :
      ∃ loaded' txn, List.Forall₂ Account.SameLists accounts loaded' ∧
        loaded = loaded'.map (Account.confirmAll txn) :=
    ⟨loaded, [], lists, (List.map_id _).symm⟩
  have same : List.Forall₂ Account.SameLists s.accounts s.accounts :=
    List.forall₂_same.mpr fun account _ => Account.SameLists.refl account
  by_cases new : ∃ b, NewBlock s.blockchain.headers payload b
  · obtain ⟨b, new⟩ := new
    rw [handle_block_message_new new, applyNewBlock, Proc.run_bind_ok _ (Proc.run_modify ..), Proc.run_bind]
    rcases result : ((Proc.zoom (·.blockchain.utxoSet) (fun utxoSet s => s.onBlockchain ({ · with utxoSet }))
      b.giveMeUtxos.widen : Handler Unit).run (s.onBlockchain (includeNewHeader b.blockHeader))) with
      ⟨e | _, s'⟩
    · obtain rfl := (Prod.mk.inj result).2
      exact unconfirmed same
    · have kept : s'.accounts = s.accounts := by
        rw [← (Prod.mk.inj result).2]
        rfl
      rw [← kept]
      obtain ⟨e, accounts, dead, lists, updated⟩ | ⟨accounts, alive, lists, updated⟩ :=
        update_accounts_utxo_set_lists order s'
      · simp only [Proc.run_bind_error _ updated]
        exact unconfirmed lists
      · have confirmed := @Block.run_contains_pending_tx _ b { s' with accounts } alive
        refine ⟨accounts, b.txn, lists, ?_⟩
        simp only [Proc.run_bind_ok _ updated]
        rw [Proc.run_bind_ok _ confirmed]
        rfl
  · rw [handle_block_message_other fun b new' => new ⟨b, new'⟩]
    exact unconfirmed same

end Announced

end BitcoinNode
