import BitcoinNode.AccountViews
import BitcoinNode.CoinSelection

/-! Balances. The values of the outputs come from the network as they are, so what they add up to need
not be a 64-bit integer. -/
namespace BitcoinNode

/-- The balance comes out, and it is what the outputs of the account are worth. -/
def Account.Exact (account : Account) : Prop :=
  ∃ balance, account.balance = .ok balance ∧
    balance.toInt = ((holdings account.utxoSet).map (·.2.1.value.toInt)).sum

theorem Account.exact_iff {account : Account} : account.Exact ↔ NoOverflow account.utxoSet := by
  refine ⟨fun exact => ?_, Account.balance_eq⟩
  obtain ⟨balance, summed, _⟩ := exact
  obtain ⟨inside, between⟩ :=
    fits_of_foldlM UtxoTuple.worth (fun t _ _ evaluated => UtxoTuple.balance_eq_ok evaluated) summed
  refine ⟨fun t member => ?_, fits_zero_cons.mp between⟩
  obtain ⟨v, evaluated⟩ := inside t member
  have fits := (fits_of_foldlM (·.1.value.toInt) (fun utxo _ v same => by rw [← Except.ok.inj same]) evaluated).2
  exact fits_zero_cons.mp fits

section Blocks

variable [Crates]

theorem Block.inputs_of_applied {blocks : List Block} {s s' : UtxoSet}
    (applied : (Proc.each blocks Block.giveMeUtxos).run s = (.ok (), s')) :
    ∀ tx ∈ blocks.flatMap Block.txn, tx.txIn ≠ [] := by
  intro tx member
  obtain ⟨b, listed, inside⟩ := List.mem_flatMap.mp member
  obtain ⟨_, _, block⟩ := Proc.each_ok applied b listed
  obtain ⟨t, t', settled⟩ := Proc.each_ok block tx inside
  intro none
  rw [Transaction.isCoinbaseTransaction, none] at settled
  cases settled

/-- What the blocks leave unspent and pays the account, once each, is what the account holds. Its balance
is the sum of that exactly when no partial sum leaves the range, in the order in which the map is visited;
without negative values, exactly when the whole sum does not. -/
theorem balance_exact_iff {blocks : List Block} {s : UtxoSet}
    (applied : (Proc.each blocks Block.giveMeUtxos).run ∅ = (.ok (), s)) {visit : List (Hash × UtxoTuple)}
    (order : s.Enumerates visit) {account account' : Account} (set : account.setUtxos visit = .ok account') :
    (holdings account'.utxoSet).Nodup ∧
      (∀ txId out index, (txId, out, index) ∈ holdings account'.utxoSet ↔
        Ledger.Unspent ((blocks.flatMap Block.txn).map Transaction.event) txId index out ∧
          out.getAddress = .ok account.address) ∧
      (account'.Exact ↔ NoOverflow account'.utxoSet) ∧
      ((∀ held ∈ holdings account'.utxoSet, 0 ≤ held.2.1.value.toInt) →
        (account'.Exact ↔ ((holdings account'.utxoSet).map (·.2.1.value.toInt)).sum < 2 ^ 63)) := by
  obtain ⟨s', applied', keyed, run⟩ := give_me_utxos_run (Block.inputs_of_applied applied)
  obtain rfl : s = s' := (Prod.mk.inj (applied.symm.trans applied')).2
  rw [Account.set_utxos_eq_load] at set
  obtain ⟨utxos, read, same⟩ := Outcome.bind_eq_ok.mp set
  obtain rfl := Except.ok.inj same
  obtain ⟨_, rfl⟩ := (utxos_referenced_to_account_eq_ok order).mp read
  refine ⟨holdings_nodup keyed (held_indexed run) order account.address, fun txId out index => ?_,
    Account.exact_iff, fun nonneg => Account.exact_iff.trans (noOverflow_iff_of_nonneg nonneg)⟩
  rw [Account.loadUtxos, mem_holdings keyed order, ← Ledger.mem_run, UtxoSet.held, run]
  refine and_congr_left fun _ => ?_
  cases Ledger.run Ledger.empty ((blocks.flatMap Block.txn).map Transaction.event) txId <;> simp

def paidScript : List UInt8 := [opDup, opHash160, 20] ++ List.replicate 20 7 ++ [opEqualverify, opChecksig]

def paidAddress : String :=
  let bytes := 0x6f :: List.replicate 20 7
  Crates.bs58Encode (bytes ++ (Crates.sha256 (Crates.sha256 bytes).val).val.take 4)

def payingTx (values : List Int64) : Transaction := .mint 1 (values.map fun value => TxOut.new value paidScript)

def Block.paying (values : List Int64) : Block :=
  .mined (U8Array.replicate 32 1) (payingTx values).hash [payingTx values]

def payingUtxos (values : List Int64) : UtxoTuple := ⟨(payingTx values).hash, (payingTx values).txOut.zipIdx⟩

theorem Block.paying_run (values : List Int64) :
    (Proc.each [Block.paying values] Block.giveMeUtxos).run ∅ =
      (.ok (), (∅ : UtxoSet).insert (payingTx values).hash (payingUtxos values)) := by
  have block := Block.give_me_utxos_eq (b := Block.paying values) (fun tx member => by
    obtain rfl := List.mem_singleton.mp member
    exact List.cons_ne_nil _ _) ∅
  rw [Proc.each, Proc.run_bind_ok _ block]
  rfl

theorem paying_set {values : List Int64} (nonempty : values ≠ []) {account : Account}
    (own : account.address = paidAddress) :
    account.setUtxos [((payingTx values).hash, payingUtxos values)] =
      .ok { account with utxoSet := [payingUtxos values] } := by
  have pays : ∀ utxo ∈ (payingUtxos values).utxoSet, utxo.1.getAddress = .ok paidAddress := by
    intro utxo member
    obtain ⟨value, _, same⟩ := List.mem_map.mp (List.fst_mem_of_mem_zipIdx member)
    rw [← same]
    rfl
  rw [Account.set_utxos_eq account (List.forall_mem_singleton.mpr fun utxo member e failed => by
    rw [pays utxo member] at failed
    cases failed)]
  have all : (payingUtxos values).paid account.address = (payingUtxos values).utxoSet :=
    List.filter_eq_self.mpr fun utxo member => decide_eq_true ((pays utxo member).trans (by rw [own]))
  have filled : (payingUtxos values).utxoSet.isEmpty = false := by
    simpa [payingUtxos, payingTx, Transaction.mint] using nonempty
  have kept : (payingUtxos values).kept account.address = some (payingUtxos values) := by
    rw [UtxoTuple.kept, all, filled]
    rfl
  rw [List.map_singleton, List.filterMap_cons, kept]
  rfl

end Blocks

/-- An account of this address, and two outputs of one satoshi less than 2^63 each: the largest value that
is read. -/
theorem balance_overflows :
    let _ := Crates.standard
    let values : List Int64 := [9223372036854775807, 9223372036854775807]
    let s : UtxoSet := (∅ : UtxoSet).insert (payingTx values).hash (payingUtxos values)
    let account : Account := ⟨paidAddress, [], [], []⟩
    (Block.paying values).Accepted ∧ (Proc.each [Block.paying values] Block.giveMeUtxos).run ∅ = (.ok (), s) ∧
      ∃ visit account', s.Enumerates visit ∧ account.setUtxos visit = .ok account' ∧
        account'.balance = Outcome.panic ∧ ¬account'.Exact := by
  intro _ values s account
  have work : (Block.paying values).blockHeader.validate = .ok true := by decide +kernel
  have panics : ({ account with utxoSet := [payingUtxos values] } : Account).balance = Outcome.panic := rfl
  refine ⟨Block.mined_accepted work (by decide +kernel), Block.paying_run values, _, _,
    HashMap.enumerates_insert_empty _ _, paying_set (by decide) rfl, panics, ?_⟩
  rintro ⟨balance, summed, _⟩
  rw [panics] at summed
  cases summed

/-- Two outputs of an account. -/
theorem balance_exact_five :
    let _ := Crates.standard
    let account : Account := ⟨paidAddress, [payingUtxos [2, 3]], [], []⟩
    (holdings account.utxoSet).Nodup ∧
      (∀ txId out index, (txId, out, index) ∈ holdings account.utxoSet ↔
        Ledger.Unspent (([Block.paying [2, 3]].flatMap Block.txn).map Transaction.event) txId index out ∧
          out.getAddress = .ok paidAddress) ∧
      (account.Exact ↔ NoOverflow account.utxoSet) ∧
      ((∀ held ∈ holdings account.utxoSet, 0 ≤ held.2.1.value.toInt) →
        (account.Exact ↔ ((holdings account.utxoSet).map (·.2.1.value.toInt)).sum < 2 ^ 63)) := by
  intro _ account
  have set := @paying_set _ [2, 3] (by decide) ⟨paidAddress, [], [], []⟩ rfl
  exact balance_exact_iff (Block.paying_run [2, 3]) (HashMap.enumerates_insert_empty _ _) set

end BitcoinNode
