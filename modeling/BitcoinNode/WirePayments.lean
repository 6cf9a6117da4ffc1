import BitcoinNode.Confirmations
import BitcoinNode.SignedInputs

/-! Payments on the wire. What a wallet signs is what the decoder builds from its bytes, so a peer
that echoes a payment changes nothing, and a block that holds it confirms it. -/
namespace BitcoinNode

/-- Outputs of real transactions, as many as fit in memory: none of their outpoints is that of a
coinbase input. -/
structure RealOutputs (utxos : List UtxoTuple) : Prop where
  txId : ∀ held ∈ holdings utxos, held.1 ≠ U8Array.replicate 32 0
  index : ∀ held ∈ holdings utxos, held.2.2 < 0xffffffff
  count : (holdings utxos).length < 2 ^ 64

theorem RealOutputs.of_sublist {utxos taken : List UtxoTuple} (real : RealOutputs utxos)
    (part : (holdings taken).Sublist (holdings utxos)) : RealOutputs taken where
  txId held member := real.txId held (part.subset member)
  index held member := real.index held (part.subset member)
  count := Nat.lt_of_le_of_lt part.length_le real.count

theorem TxIn.carrying_wellFormed {held : Hash × TxOut × Nat} (txId : held.1 ≠ U8Array.replicate 32 0)
    (index : held.2.2 < 0xffffffff) {script : List UInt8} (fits : script.length < 2 ^ 64) :
    (TxIn.carrying held script).WellFormed := by
  have spends : (outpointOf held).isACoinbaseOutpoint = false := by
    have other : UInt32.ofNat held.2.2 ≠ 0xffffffff := fun same => by
      have value := congrArg UInt32.toNat same
      rw [UInt32.toNat_ofNat_of_lt' (Nat.lt_trans index (by decide))] at value
      have last : (0xffffffff : UInt32).toNat = 0xffffffff := rfl
      omega
    simp only [Outpoint.isACoinbaseOutpoint, outpointOf, Bool.or_eq_false_iff, beq_eq_false_iff_ne]
    exact ⟨other, txId⟩
  constructor
  case script => simpa [carrying, add, incompleteTxin] using CompactSizeUint.new_counts fits
  case coinbase => exact spends.symm
  case height => exact fun height none => by cases none
  case limit => exact fun coinbase => by cases coinbase

theorem TxOut.new_wellFormed {value : Int64} {pkScript : List UInt8} (fits : pkScript.length < 2 ^ 64) :
    (TxOut.new value pkScript).WellFormed := CompactSizeUint.new_counts fits

theorem validate_transaction_data_positive {amount fee : Int64}
    (checked : validateTransactionData amount fee = .ok ()) : 0 < amount.toInt + fee.toInt := by
  obtain ⟨sum, added, checked⟩ := Outcome.bind_eq_ok.mp checked
  rw [← checked_add_eq_ok (Outcome.widen_eq_ok.mp added)]
  by_contra negative
  have small : sum ≤ 0 := Int64.le_iff_toInt_le.mpr (by rw [Int64.toInt_zero]; omega)
  rw [if_pos small] at checked
  cases checked

section Wire

variable [WalletCrates]

theorem generate_pubkey_script_length {address : String} {script : List UInt8}
    (generated : generatePubkeyScript address = .ok script) : script.length = 25 := by
  obtain ⟨pubkeyHash, _, same⟩ := Outcome.bind_eq_ok.mp generated
  cases same
  simp

/-- The counts and the outputs of an unsigned transaction are as the decoder reads them. -/
theorem Transaction.generate_unsigned_counts {addressReceiver changeAdress : String} {value fee : Int64}
    {utxosToSpend : List UtxoTuple} {tx : Transaction}
    (generated : generateUnsignedTransaction addressReceiver changeAdress value fee utxosToSpend =
      .ok tx) :
    tx.txinCount = CompactSizeUint.new tx.txIn.length ∧ tx.txoutCount.Counts tx.txOut.length ∧
      ∀ txout ∈ tx.txOut, txout.WellFormed := by
  obtain ⟨_, _, _, _, _, _, _, _, target, change, rfl⟩ := generate_unsigned_steps generated
  have short {address : String} {script : List UInt8} (made : generatePubkeyScript address = .ok script) :
      script.length < 2 ^ 64 := by
    rw [generate_pubkey_script_length made]
    decide
  refine ⟨by rw [List.length_map], CompactSizeUint.new_counts (by simp), fun txout member => ?_⟩
  rcases List.mem_pair.mp member with rfl | rfl
  · exact TxOut.new_wellFormed (short target)
  · exact TxOut.new_wellFormed (short change)

theorem SigScript.generate_sig_script_fits
    (memory : ∀ key hash signature, WalletCrates.sign key hash = .ok signature → signature.length < 2 ^ 63)
    {hash : U8Array 32} {account : SpendingAccount} {script : SigScript}
    (generated : generateSigScript hash account = .ok script) : script.bytes.length < 2 ^ 64 := by
  obtain ⟨privateKey, _, generated⟩ := Outcome.bind_eq_ok.mp generated
  obtain ⟨signature, signs, generated⟩ := Outcome.bind_eq_ok.mp generated
  obtain ⟨publicKey, _, same⟩ := Outcome.bind_eq_ok.mp generated
  rcases made : WalletCrates.sign privateKey hash with _ | signature' <;> rw [made] at signs <;> cases signs
  have bound := memory _ _ _ made
  cases same
  simp only [List.length_append, List.length_cons, List.length_nil, U8Array.length_val]
  omega

theorem Transaction.sign_wellFormed
    (memory : ∀ key hash signature, WalletCrates.sign key hash = .ok signature → signature.length < 2 ^ 63)
    {utxosToSpend : List UtxoTuple} (real : RealOutputs utxosToSpend)
    (nonempty : holdings utxosToSpend ≠ []) {addressReceiver changeAdress : String}
    {value fee : Int64} {unsigned signed : Transaction} {account : SpendingAccount}
    (generated : generateUnsignedTransaction addressReceiver changeAdress value fee utxosToSpend =
      .ok unsigned)
    (signs : unsigned.sign account utxosToSpend = .ok signed) : signed.WellFormed := by
  have inputs := generate_unsigned_inputs generated
  obtain ⟨txinCount, txoutCount, outputs⟩ := generate_unsigned_counts generated
  obtain ⟨names, sameOutputs⟩ := sign_eq_ok signs
  have length : signed.txIn.length = (holdings utxosToSpend).length := by
    have count := congrArg List.length names
    simpa [inputs] using count
  have kept : signed.txinCount = unsigned.txinCount ∧ signed.txoutCount = unsigned.txoutCount := by
    obtain ⟨signatures, _, same⟩ := Outcome.bind_eq_ok.mp signs
    cases same
    exact ⟨rfl, rfl⟩
  have each : ∀ txin ∈ signed.txIn, txin.WellFormed ∧ txin.isCoinbase = false := by
    intro txin member
    obtain ⟨i, bound, rfl⟩ := List.getElem_of_mem member
    have here := List.getElem?_eq_getElem (length ▸ bound)
    obtain ⟨script, made, stored⟩ := sign_inputs inputs signs here
    rw [List.getElem?_eq_getElem bound] at stored
    rw [Option.some.inj stored]
    have held := List.getElem_mem (length ▸ bound)
    exact ⟨TxIn.carrying_wellFormed (real.txId _ held) (real.index _ held)
      (SigScript.generate_sig_script_fits memory made), rfl⟩
  constructor
  case txinCount =>
    rw [kept.1, txinCount, inputs, List.length_map, length]
    exact CompactSizeUint.new_counts real.count
  case inputs => exact fun txin member => (each txin member).1
  case nonempty =>
    rintro none
    rw [none] at length
    exact nonempty (List.length_eq_zero_iff.mp length.symm)
  case coinbase =>
    intro first head coinbase
    rw [(each first (List.mem_of_mem_head? head)).2] at coinbase
    cases coinbase
  case txoutCount =>
    rw [kept.2, sameOutputs]
    exact txoutCount
  case outputs =>
    rw [sameOutputs]
    exact outputs

theorem SpendingAccount.signed_transaction_wellFormed
    (memory : ∀ key hash signature, WalletCrates.sign key hash = .ok signature → signature.length < 2 ^ 63)
    {account : SpendingAccount} (real : RealOutputs account.utxoSet) {addressReceiver : String}
    {amount fee : Int64} {tx : Transaction} (positive : 0 < amount.toInt + fee.toInt)
    (signed : account.signedTransaction addressReceiver amount fee = .ok tx) : tx.WellFormed := by
  obtain ⟨_, reached, _⟩ := signed_transaction_eq_ok signed
  obtain ⟨value, utxosToSpend, unsigned, added, _, selected, generated, signs⟩ := signed_transaction_steps signed
  have taken := get_utxos_for_amount_eq_ok selected
  rw [checked_add_eq_ok added, Int64.toInt_zero] at taken
  subst taken
  refine Transaction.sign_wellFormed memory (real.of_sublist (holdings_selection_sublist _ 0 _))
    (fun none => ?_) generated signs
  rw [none] at reached
  simp at reached
  omega

/-- Every pending transaction is one that the decoder builds. -/
def Account.Decodable (account : Account) : Prop := ∀ tx ∈ account.pendingTransactions, tx.WellFormed

/-- The double hash has no collision among these transactions. -/
def NoCollision (txs : List Transaction) : Prop :=
  ∀ tx ∈ txs, ∀ other ∈ txs, sha256d tx.marshalling = sha256d other.marshalling →
    tx.marshalling = other.marshalling

theorem Account.Decodable.announce {account : Account} (decodable : account.Decodable) {tx : Transaction}
    (valid : tx.WellFormed) (outputs : List TxOut) : (account.announce tx outputs).Decodable := by
  rw [Account.announce]
  split_ifs
  · intro other member
    rcases List.mem_append.mp member with before | added
    · exact decodable other before
    · rwa [List.mem_singleton.mp added]
  · exact decodable

theorem Account.Decodable.apart {account : Account} (decodable : account.Decodable)
    (hashes : NoCollision account.pendingTransactions) : account.Apart := fun tx member other member' same =>
  Transaction.eq_of_marshalling (decodable tx member) (decodable other member')
    (hashes tx member other member' same)

theorem Account.Decodable.confirmAll {account : Account} (decodable : account.Decodable)
    (txn : List Transaction) : (account.confirmAll txn).Decodable := by
  induction txn generalizing account with
  | nil => exact decodable
  | cons tx rest ih =>
    apply @ih (account.confirm tx)
    by_cases pending : tx ∈ account.pendingTransactions
    · obtain ⟨front, moved, back, split, _, _, confirmed⟩ := confirm_pending pending
      rw [confirmed]
      intro other member
      refine decodable other (split ▸ ?_)
      rcases List.mem_append.mp member with before | after
      · exact List.mem_append_left _ before
      · exact List.mem_append_right _ (List.mem_cons_of_mem _ after)
    · rwa [confirm_other pending]

theorem handle_tx_message_decodable {s : NodeDataPointers} (decodable : ∀ account ∈ s.accounts, account.Decodable)
    (payload : List UInt8) : ∀ account ∈ ((handleTxMessage payload).run s).2.accounts, account.Decodable := by
  by_cases other : s.accountsPoisoned = true ∨ ∀ tx stop, Transaction.unmarshalling payload 0 ≠ .ok (tx, stop)
  · rwa [handle_tx_message_other other]
  · simp only [not_or, not_forall, not_not, Bool.not_eq_true] at other
    obtain ⟨alive, tx, stop, decoded⟩ := other
    have valid := (Transaction.unmarshalling_spans payload 0 tx stop (Nat.zero_le _) decoded).2.2.2
    rw [handle_tx_message_accounts decoded alive]
    intro account member
    obtain ⟨before, listed, rfl⟩ := List.mem_map.mp member
    exact (decodable before listed).announce valid _

theorem Block.contains_pending_tx_decodable {s : NodeDataPointers} (alive : s.accountsPoisoned = false)
    (decodable : ∀ account ∈ s.accounts, account.Decodable) (b : Block) :
    ∀ account ∈ (b.containsPendingTx.run s).2.accounts, account.Decodable := by
  rw [b.run_contains_pending_tx alive]
  intro account member
  obtain ⟨before, listed, rfl⟩ := List.mem_map.mp member
  exact (decodable before listed).confirmAll _

/-- A payment of real outputs is decoded to itself. Echoed by a peer it leaves the account that paid
as it is, and a block that holds it moves it from the pending ones to the confirmed ones. -/
theorem PaymentWallet.make_transaction_survives_wire
    (memory : ∀ key hash signature, WalletCrates.sign key hash = .ok signature → signature.length < 2 ^ 63)
    {wallet wallet' : PaymentWallet} {addressReceiver : String} {amount fee : Int64}
    (real : ∀ account ∈ wallet.accounts, RealOutputs account.utxoSet)
    (decodable : ∀ account ∈ wallet.accounts, account.Decodable)
    (ran : (makeTransaction addressReceiver amount fee).run wallet = (.ok (), wallet')) :
    ∃ index account tx, wallet.currentAccountIndex = some index ∧
      wallet.accounts[index]? = some account ∧
      wallet'.accounts = wallet.accounts.set index (account.addTransaction tx) ∧
      Transaction.unmarshalling tx.marshalling 0 = .ok (tx, tx.marshalling.length) ∧
      (∀ account ∈ wallet'.accounts, account.Decodable) ∧
      ∀ s : NodeDataPointers, s.accounts = wallet'.accounts.map (·.toAccount) →
        ((handleTxMessage tx.marshalling).run s).2.accounts[index]? = some (account.addTransaction tx).toAccount ∧
        ∀ b : Block, tx ∈ b.txn → s.accountsPoisoned = false →
          NoCollision (account.addTransaction tx).pendingTransactions →
          ∃ moved, tx ∈ moved ∧ moved.Sublist b.txn ∧
            (moved ++ (account.addTransaction tx).pendingTransactions.diff b.txn).Perm
              (account.addTransaction tx).pendingTransactions ∧
            (b.containsPendingTx.run s).2.accounts[index]? = some { account.toAccount with
              pendingTransactions := (account.addTransaction tx).pendingTransactions.diff b.txn
              confirmedTransactions := account.confirmedTransactions ++ moved } := by
  obtain ⟨checked, index, account, tx, inUse, stored, signed, accounts⟩ := make_transaction_eq_ok ran
  have member := List.mem_of_getElem? stored
  have valid := SpendingAccount.signed_transaction_wellFormed memory (real account member)
    (validate_transaction_data_positive checked) signed
  have decoded : Transaction.unmarshalling tx.marshalling 0 = .ok (tx, tx.marshalling.length) := by
    simpa using Transaction.unmarshalling_reads valid [] []
  have paid : (account.addTransaction tx).Decodable := by
    intro other added
    rcases List.mem_append.mp added with before | last
    · exact decodable account member other before
    · rwa [List.mem_singleton.mp last]
  refine ⟨index, account, tx, inUse, stored, accounts, decoded, fun other listed => ?_, fun s shared => ?_⟩
  · rw [accounts] at listed
    rcases List.mem_or_eq_of_mem_set listed with before | rfl
    · exact decodable other before
    · exact paid
  have here : s.accounts[index]? = some (account.addTransaction tx).toAccount := by
    rw [shared, accounts, List.getElem?_map, List.getElem?_set_self (List.getElem?_eq_some_iff.mp stored).1]
    rfl
  have pending : tx ∈ (account.addTransaction tx).pendingTransactions :=
    List.mem_append_right _ (List.mem_singleton_self tx)
  constructor
  · cases alive : s.accountsPoisoned with
    | true => rwa [handle_tx_message_other (.inl alive)]
    | false =>
      rw [handle_tx_message_accounts decoded alive, List.getElem?_map, here, Option.map_some,
        Account.announce_pending pending]
  · intro b inside alive hashes
    refine ⟨_, List.mem_bagInter.mpr ⟨inside, pending⟩, List.bagInter_sublist_left, bagInter_append_diff _ _, ?_⟩
    rw [b.run_contains_pending_tx alive, List.getElem?_map, here, Option.map_some,
      Account.confirm_all_apart (paid.apart hashes) b.txn]
    rfl

end Wire

theorem OneKey.signature_fits :
    ∀ key hash signature, OneKey.crates.sign key hash = .ok signature → signature.length < 2 ^ 63 := by
  intro key hash signature signs
  by_cases same : key = OneKey.privateKey
  · have made := (if_pos same).symm.trans signs
    rw [← Except.ok.inj made]
    exact Nat.lt_of_le_of_lt (OneKey.signature_short hash) (by norm_num)
  · cases (if_neg same).symm.trans signs

/-- Five satoshis and a fee of two: the payment is decoded from its bytes, an echo changes nothing, and a block that
holds it confirms it. -/
theorem PaymentWallet.make_transaction_survives_wire_five :
    let _ := OneKey.crates
    let wallet := OneKey.wallet OneKey.p2pkh
    ∃ wallet' index account tx, (makeTransaction OneKey.receiver 5 2).run wallet = (.ok (), wallet') ∧
      wallet.currentAccountIndex = some index ∧
      wallet.accounts[index]? = some account ∧
      wallet'.accounts = wallet.accounts.set index (account.addTransaction tx) ∧
      Transaction.unmarshalling tx.marshalling 0 = .ok (tx, tx.marshalling.length) ∧
      let s : NodeDataPointers := ⟨.initial, wallet'.accounts.map (·.toAccount), false⟩
      let b : Block := .mined (U8Array.replicate 32 7) tx.hash [tx]
      ((handleTxMessage tx.marshalling).run s).2.accounts[index]? = some (account.addTransaction tx).toAccount ∧
        (b.containsPendingTx.run s).2.accounts[index]? =
          some { account.toAccount with pendingTransactions := [], confirmedTransactions := [tx] } := by
  have real : ∀ account ∈ (OneKey.wallet OneKey.p2pkh).accounts, RealOutputs account.utxoSet := by
    intro account member
    obtain rfl := List.mem_singleton.mp member
    have one : (holdings (OneKey.account OneKey.p2pkh).utxoSet).length = 1 := rfl
    exact ⟨by decide, by decide, by rw [one]; norm_num⟩
  have decodable : ∀ account ∈ (OneKey.wallet OneKey.p2pkh).accounts, account.Decodable := by
    intro account member
    obtain rfl := List.mem_singleton.mp member
    exact fun tx none => absurd none List.not_mem_nil
  obtain ⟨wallet', ran⟩ : ∃ wallet', (@makeTransaction OneKey.crates OneKey.receiver 5 2).run
      (OneKey.wallet OneKey.p2pkh) = (.ok (), wallet') := ⟨_, OneKey.pays_five⟩
  obtain ⟨index, account, tx, inUse, stored, accounts, decoded, _, handled⟩ :=
    @make_transaction_survives_wire OneKey.crates OneKey.signature_fits _ _ OneKey.receiver 5 2 real decodable ran
  obtain rfl : account = OneKey.account OneKey.p2pkh := List.mem_singleton.mp (List.mem_of_getElem? stored)
  obtain ⟨echoed, confirmed⟩ := handled ⟨.initial, wallet'.accounts.map (·.toAccount), false⟩ rfl
  have alone : ((OneKey.account OneKey.p2pkh).addTransaction tx).pendingTransactions = [tx] := rfl
  have hashes : @NoCollision OneKey.crates [tx] := by
    intro first isFirst second isSecond _
    rw [List.mem_singleton.mp isFirst, List.mem_singleton.mp isSecond]
  let b : Block := .mined (U8Array.replicate 32 7) (@Transaction.hash OneKey.crates.toCrates tx) [tx]
  obtain ⟨moved, _, _, perm, lists⟩ := confirmed b (List.mem_singleton_self tx) rfl (alone ▸ hashes)
  have none : ((OneKey.account OneKey.p2pkh).addTransaction tx).pendingTransactions.diff b.txn = [] := by
    rw [alone]
    exact (List.diff_cons [tx] [] tx).trans (List.erase_cons_head tx [])
  rw [none, alone, List.append_nil] at perm
  rw [none, List.perm_singleton.mp perm] at lists
  exact ⟨wallet', index, _, tx, ran, inUse, stored, accounts, decoded, echoed, lists⟩

end BitcoinNode
