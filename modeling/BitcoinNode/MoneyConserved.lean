import BitcoinNode.CoinSelection

/-! No money from nothing. The change is what the spent outputs leave over after amount and fee,
and only the sum of these two is checked, so a payment is sound when both of them are. -/
namespace BitcoinNode

/-- A transaction that spends these outputs neither creates money nor has negative outputs. -/
structure Conserves (tx : Transaction) (fee : Int64) (spent : List (Hash × TxOut × Nat)) : Prop where
  nonnegative : ∀ txout ∈ tx.txOut, 0 ≤ txout.value.toInt
  balanced : (tx.txOut.map (·.value.toInt)).sum + fee.toInt = (spent.map (·.2.1.value.toInt)).sum
  covered : (tx.txOut.map (·.value.toInt)).sum ≤ (spent.map (·.2.1.value.toInt)).sum

/-- The outpoint of a held output, as an input names it. -/
def outpointOf (held : Hash × TxOut × Nat) : Outpoint := ⟨held.1, UInt32.ofNat held.2.2⟩

section Payments

variable [WalletCrates]

theorem Transaction.generate_unsigned_steps {addressReceiver changeAdress : String}
    {value fee : Int64} {utxosToSpend : List UtxoTuple} {tx : Transaction}
    (generated : generateUnsignedTransaction addressReceiver changeAdress value fee utxosToSpend =
      .ok tx) :
    ∃ inputBalance sum changeAmount targetPkScript changePkScript,
      utxosToSpend.foldlM (fun balance t => do checkedAdd balance (← t.balance)) 0 = .ok inputBalance ∧
      checkedAdd value fee = .ok sum ∧ checkedSub inputBalance sum = .ok changeAmount ∧
      generatePubkeyScript addressReceiver = .ok targetPkScript ∧
      generatePubkeyScript changeAdress = .ok changePkScript ∧
      tx = ⟨2, CompactSizeUint.new (holdings utxosToSpend).length,
        (holdings utxosToSpend).map fun held => TxIn.incompleteTxin (outpointOf held), CompactSizeUint.new 2,
        [TxOut.new value targetPkScript, TxOut.new changeAmount changePkScript], 0⟩ := by
  obtain ⟨inputBalance, summed, generated⟩ := Outcome.bind_eq_ok.mp generated
  obtain ⟨changeAmount, changed, generated⟩ := Outcome.bind_eq_ok.mp generated
  obtain ⟨targetPkScript, target, generated⟩ := Outcome.bind_eq_ok.mp generated
  obtain ⟨changePkScript, change, generated⟩ := Outcome.bind_eq_ok.mp generated
  obtain ⟨sum, added, subtracted⟩ := Outcome.bind_eq_ok.mp (Outcome.widen_eq_ok.mp changed)
  have inputs : (utxosToSpend.flatMap fun utxo => utxo.utxoSet.map fun held =>
      TxIn.incompleteTxin ⟨utxo.hash, UInt32.ofNat held.2⟩) =
        (holdings utxosToSpend).map fun held => TxIn.incompleteTxin (outpointOf held) := by
    simp [holdings, List.map_flatMap, Function.comp_def, outpointOf]
  have length := congrArg List.length inputs
  rw [List.length_map] at length
  refine ⟨inputBalance, sum, changeAmount, targetPkScript, changePkScript, Outcome.widen_eq_ok.mp summed,
    added, subtracted, target, change, ?_⟩
  rw [← length, ← inputs]
  exact (Except.ok.inj generated).symm

theorem Transaction.generate_unsigned_eq_ok {addressReceiver changeAdress : String}
    {value fee : Int64} {utxosToSpend : List UtxoTuple} {tx : Transaction}
    (generated : generateUnsignedTransaction addressReceiver changeAdress value fee utxosToSpend =
      .ok tx) :
    tx.txIn.map (·.previousOutput) = (holdings utxosToSpend).map outpointOf ∧
      tx.txOut.map (·.value.toInt) =
        [value.toInt, (utxosToSpend.map UtxoTuple.worth).sum - (value.toInt + fee.toInt)] := by
  obtain ⟨_, _, _, _, _, summed, added, subtracted, _, _, rfl⟩ := generate_unsigned_steps generated
  have inputs := balances_eq_ok summed
  have change := checked_sub_eq_ok subtracted
  rw [inputs, checked_add_eq_ok added] at change
  constructor
  · simp [Function.comp_def, TxIn.incompleteTxin]
  · simpa [TxOut.new] using change

theorem Transaction.sign_eq_ok {tx signed : Transaction} {account : SpendingAccount}
    {utxosToSpend : List UtxoTuple} (signs : tx.sign account utxosToSpend = .ok signed) :
    signed.txIn.map (·.previousOutput) = tx.txIn.map (·.previousOutput) ∧
      signed.txOut = tx.txOut := by
  obtain ⟨signatures, mapped, same⟩ := Outcome.bind_eq_ok.mp signs
  have length : signatures.length = tx.txIn.length := by
    rw [Outcome.mapM_length mapped, List.length_range]
  cases same
  refine ⟨?_, rfl⟩
  apply List.ext_getElem
  · simp [length]
  · intro i _ _
    simp [TxIn.add]

theorem SpendingAccount.signed_transaction_steps {account : SpendingAccount} {addressReceiver : String}
    {amount fee : Int64} {tx : Transaction}
    (signed : account.signedTransaction addressReceiver amount fee = .ok tx) :
    ∃ value utxosToSpend unsigned, checkedAdd amount fee = .ok value ∧ account.hasBalance value = .ok true ∧
      BitcoinNode.getUtxosForAmount value account.utxoSet 0 = .ok utxosToSpend ∧
      Transaction.generateUnsignedTransaction addressReceiver account.address amount fee utxosToSpend =
        .ok unsigned ∧ unsigned.sign account utxosToSpend = .ok tx := by
  obtain ⟨_, _, signed⟩ := Outcome.bind_eq_ok.mp signed
  obtain ⟨value, added, signed⟩ := Outcome.bind_eq_ok.mp signed
  obtain ⟨enough, compared, signed⟩ := Outcome.bind_eq_ok.mp signed
  cases enough with
  | false => cases signed
  | true =>
    obtain ⟨utxosToSpend, selected, signed⟩ := Outcome.bind_eq_ok.mp signed
    obtain ⟨unsigned, generated, signed⟩ := Outcome.bind_eq_ok.mp signed
    obtain ⟨signed', signs, signed⟩ := Outcome.bind_eq_ok.mp signed
    obtain ⟨_, _, same⟩ := Outcome.bind_eq_ok.mp signed
    obtain rfl := Except.ok.inj same
    exact ⟨value, utxosToSpend, unsigned, Outcome.widen_eq_ok.mp added, Outcome.widen_eq_ok.mp compared,
      Outcome.widen_eq_ok.mp selected, generated, signs⟩

theorem SpendingAccount.signed_transaction_eq_ok {account : SpendingAccount} {addressReceiver : String}
    {amount fee : Int64} {tx : Transaction}
    (signed : account.signedTransaction addressReceiver amount fee = .ok tx) :
    let spent := holdings (selection (amount.toInt + fee.toInt) 0 account.utxoSet)
    tx.txIn.map (·.previousOutput) = spent.map outpointOf ∧
      amount.toInt + fee.toInt ≤ (spent.map (·.2.1.value.toInt)).sum ∧
      tx.txOut.map (·.value.toInt) =
        [amount.toInt, (spent.map (·.2.1.value.toInt)).sum - (amount.toInt + fee.toInt)] := by
  obtain ⟨value, utxosToSpend, unsigned, added, compared, selected, generated, signs⟩ := signed_transaction_steps signed
  have value_eq := checked_add_eq_ok added
  obtain ⟨inputs, outputs⟩ := Transaction.generate_unsigned_eq_ok generated
  obtain ⟨kept, sameOutputs⟩ := Transaction.sign_eq_ok signs
  have taken := get_utxos_for_amount_eq_ok selected
  rw [value_eq, Int64.toInt_zero] at taken
  obtain ⟨balance, summed, exceeded⟩ := Outcome.bind_eq_ok.mp compared
  have total := balances_eq_ok summed
  have exceeds := Int64.lt_iff_toInt_lt.mp (of_decide_eq_true (Except.ok.inj exceeded))
  subst taken
  simp only [sum_holdings, kept, inputs, sameOutputs, outputs, true_and, and_true]
  have reached := selection_enough (amount.toInt + fee.toInt) 0 account.utxoSet (by
    rw [← value_eq, Int.zero_add]
    simpa [total] using exceeds)
  simpa using reached

theorem PaymentWallet.account_transaction_eq_ok {wallet wallet' : PaymentWallet} {index : Nat}
    {addressReceiver : String} {amount fee : Int64} {tx : Transaction}
    (ran : (accountTransaction index addressReceiver amount fee).run wallet = (.ok tx, wallet')) :
    ∃ account, wallet.accounts[index]? = some account ∧
      account.signedTransaction addressReceiver amount fee = .ok tx ∧
      wallet'.accounts = wallet.accounts.set index (account.addTransaction tx) := by
  simp only [accountTransaction] at ran
  split_ifs at ran
  · cases (Prod.mk.inj ran).1
  rcases stored : wallet.accounts[index]? with _ | account
  · simp [stored, Outcome.panic] at ran
  simp only [stored] at ran
  split at ran
  case h_1 tx' account' made =>
    obtain ⟨same, rfl⟩ := Prod.mk.inj ran
    cases same
    rw [SpendingAccount.makeTransaction, Proc.run_bind_ok _ (Proc.run_get account)] at made
    obtain ⟨tx, _, lifted, made⟩ := Proc.run_bind_eq_ok made
    obtain ⟨signed, rfl⟩ := Prod.mk.inj lifted
    cases made
    exact ⟨account, rfl, signed, rfl⟩
  all_goals cases (Prod.mk.inj ran).1

theorem PaymentWallet.make_transaction_eq_ok {wallet wallet' : PaymentWallet}
    {addressReceiver : String} {amount fee : Int64}
    (ran : (makeTransaction addressReceiver amount fee).run wallet = (.ok (), wallet')) :
    validateTransactionData amount fee = .ok () ∧
    ∃ index account tx, wallet.currentAccountIndex = some index ∧
      wallet.accounts[index]? = some account ∧
      account.signedTransaction addressReceiver amount fee = .ok tx ∧
      wallet'.accounts = wallet.accounts.set index (account.addTransaction tx) := by
  rw [makeTransaction, Proc.run_bind_ok _ (Proc.run_get wallet)] at ran
  rcases inUse : wallet.currentAccountIndex with _ | index
  · simp [inUse, Outcome.fail] at ran
  simp only [inUse] at ran
  obtain ⟨_, _, checked, ran⟩ := Proc.run_bind_eq_ok ran
  obtain ⟨valid, rfl⟩ := Prod.mk.inj checked
  obtain ⟨tx, paid, paying, ran⟩ := Proc.run_bind_eq_ok ran
  obtain ⟨account, stored, signed, accounts⟩ := account_transaction_eq_ok paying
  refine ⟨valid, index, account, tx, rfl, stored, signed, ?_⟩
  rw [← accounts, ← (Prod.mk.inj ran).2]

/-- A payment that succeeds is pending afterwards. Its outputs are nonnegative, add up to what it
spends together with the fee, and stay below that, exactly when amount and fee are not negative. -/
theorem PaymentWallet.make_transaction_conserves {wallet wallet' : PaymentWallet}
    {addressReceiver : String} {amount fee : Int64}
    (ran : (makeTransaction addressReceiver amount fee).run wallet = (.ok (), wallet')) :
    ∃ index account tx spent, wallet.currentAccountIndex = some index ∧
      wallet.accounts[index]? = some account ∧
      wallet'.accounts = wallet.accounts.set index (account.addTransaction tx) ∧
      spent.Sublist (holdings account.utxoSet) ∧
      tx.txIn.map (·.previousOutput) = spent.map outpointOf ∧
      (Conserves tx fee spent ↔ 0 ≤ amount.toInt ∧ 0 ≤ fee.toInt) := by
  obtain ⟨_, index, account, tx, inUse, stored, signed, accounts⟩ := make_transaction_eq_ok ran
  obtain ⟨inputs, reached, outputs⟩ := SpendingAccount.signed_transaction_eq_ok signed
  refine ⟨index, account, tx, _, inUse, stored, accounts, holdings_selection_sublist _ 0 _, inputs, ?_⟩
  have values (P : Int → Prop) :
      (∀ txout ∈ tx.txOut, P txout.value.toInt) ↔ ∀ v ∈ tx.txOut.map (·.value.toInt), P v := by simp
  constructor
  · rintro ⟨nonnegative, balanced, covered⟩
    have first := (values (0 ≤ ·)).mp nonnegative
    rw [outputs] at first balanced covered
    simp only [List.sum_cons, List.sum_nil, List.forall_mem_cons] at first balanced covered
    exact ⟨first.1, by omega⟩
  · rintro ⟨amountNonneg, feeNonneg⟩
    refine ⟨(values (0 ≤ ·)).mpr ?_, ?_, ?_⟩ <;> rw [outputs]
    · simp only [List.forall_mem_cons]
      exact ⟨amountNonneg, by omega, by simp⟩
    · simp only [List.sum_cons, List.sum_nil]
      omega
    · simp only [List.sum_cons, List.sum_nil]
      omega

end Payments

/-- A fee of minus five satoshis: the outputs pay fifteen out of the ten that are spent. -/
theorem PaymentWallet.make_transaction_conserves_negative :
    let _ := OneKey.crates
    let account := OneKey.account OneKey.p2pkh
    let ran := (makeTransaction OneKey.receiver 10 (-5)).run (OneKey.wallet OneKey.p2pkh)
    let txs := ran.2.accounts.flatMap fun account => account.pendingTransactions
    ran.1 = .ok () ∧ (∀ held ∈ holdings account.utxoSet, 0 ≤ held.2.1.value.toInt) ∧
      txs.map (·.txIn.map (·.previousOutput)) = [(holdings account.utxoSet).map outpointOf] ∧
      ((holdings account.utxoSet).map (·.2.1.value.toInt)).sum = 10 ∧
      txs.map (·.txOut.map (·.value.toInt)) = [[10, 5]] := by
  decide +kernel

theorem OneKey.pays_five :
    (@PaymentWallet.makeTransaction OneKey.crates receiver 5 2).run (wallet p2pkh) =
      (.ok (), ((@PaymentWallet.makeTransaction OneKey.crates receiver 5 2).run (wallet p2pkh)).2) :=
  Proc.run_eq_of_returns (by decide +kernel)

/-- Five satoshis and a fee of two, from one output of ten. -/
theorem PaymentWallet.make_transaction_conserves_five :
    let _ := OneKey.crates
    let s := OneKey.wallet OneKey.p2pkh
    let s' := ((makeTransaction OneKey.receiver 5 2).run s).2
    ∃ index account tx spent, s.currentAccountIndex = some index ∧
      s.accounts[index]? = some account ∧
      s'.accounts = s.accounts.set index (account.addTransaction tx) ∧
      spent.Sublist (holdings account.utxoSet) ∧
      tx.txIn.map (·.previousOutput) = spent.map outpointOf ∧
      (Conserves tx 2 spent ↔ 0 ≤ (5 : Int64).toInt ∧ 0 ≤ (2 : Int64).toInt) := by
  exact @make_transaction_conserves OneKey.crates _ _ OneKey.receiver 5 2 OneKey.pays_five

end BitcoinNode
