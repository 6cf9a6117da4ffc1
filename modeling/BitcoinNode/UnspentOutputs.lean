import BitcoinNode.Account

/-! Blocks applied in chain order leave exactly the unspent outputs, and an account is given
exactly those that pay it. -/
namespace BitcoinNode

def UtxoSet.held (s : UtxoSet) (txId : Hash) : List (TxOut × Nat) := (s.ledger txId).getD []

theorem held_indexed {s : UtxoSet} {es : List (Ledger.Event Hash TxOut)}
    (run : s.ledger = Ledger.run Ledger.empty es) (txId : Hash) : (s.held txId).Nodup := by
  rw [UtxoSet.held, run]
  cases held : Ledger.run Ledger.empty es txId with
  | none => exact List.nodup_nil
  | some outs => exact List.Nodup.of_map _ (Ledger.run_indexed held)

theorem count_of_nodup {α : Type} [BEq α] [LawfulBEq α] {xs : List α} (nodup : xs.Nodup) {x : α} {P : Prop}
    (member : x ∈ xs ↔ P) : (P → xs.count x = 1) ∧ (¬P → xs.count x = 0) :=
  ⟨fun holds => List.count_eq_one_of_mem nodup (member.mpr holds),
    fun fails => List.count_eq_zero.mpr (member.not.mpr fails)⟩

section Unspent

variable [Crates]

/-- Output `index` of the transaction `txId`, when no later transaction spends it. -/
def Unspent (txs : List Transaction) (txId : Hash) (index : Nat) (out : TxOut) : Prop :=
  ∃ before tx after, txs = before ++ tx :: after ∧ tx.hash = txId ∧ tx.txOut[index]? = some out ∧
    ∀ later ∈ after, ¬later.Coinbase → ∀ txin ∈ later.txIn, txin.names ≠ (txId, index)

theorem spent_event (txs : List Transaction) (txId : Hash) (index : Nat) :
    Ledger.Spent (txs.map Transaction.event) txId index ↔
      ∃ tx ∈ txs, ¬tx.Coinbase ∧ ∃ txin ∈ tx.txIn, txin.names = (txId, index) := by
  have spends (tx : Transaction) : (txId, index) ∈ tx.event.spends ↔
      ¬tx.Coinbase ∧ ∃ txin ∈ tx.txIn, txin.names = (txId, index) := by
    by_cases coinbase : tx.Coinbase <;> simp [Transaction.event, Transaction.spends, coinbase]
  simp only [Ledger.Spent, List.mem_map, exists_exists_and_eq_and, spends]

/-- With distinct ids the only transaction of an id is the last one. -/
theorem unspent_event {txs : List Transaction} (distinct : (txs.map Transaction.hash).Nodup)
    (txId : Hash) (index : Nat) (out : TxOut) :
    Ledger.Unspent (txs.map Transaction.event) txId index out ↔ Unspent txs txId index out := by
  constructor
  · rintro ⟨before, e, after, split, rfl, listed, _, unspent⟩
    obtain ⟨front, rest, rfl, rfl, shape⟩ := List.map_eq_append_iff.mp split
    obtain ⟨tx, back, rfl, rfl, rfl⟩ := List.map_eq_cons_iff.mp shape
    refine ⟨front, tx, back, rfl, rfl, listed, fun later member spending txin named same => ?_⟩
    exact unspent ((spent_event back _ _).mpr ⟨later, member, spending, txin, named, same⟩)
  · rintro ⟨before, tx, after, rfl, rfl, listed, unspent⟩
    refine ⟨before.map Transaction.event, tx.event, after.map Transaction.event, by simp, rfl, listed,
      fun e member same => ?_, fun spent => ?_⟩
    · obtain ⟨later, listed', rfl⟩ := List.mem_map.mp member
      rw [List.map_append, List.map_cons] at distinct
      exact (List.nodup_cons.mp (List.nodup_append.mp distinct).2.1).1
        (List.mem_map.mpr ⟨later, listed', same⟩)
    · obtain ⟨later, member, spending, txin, named, same⟩ := (spent_event after _ _).mp spent
      exact unspent later member spending txin named same

theorem give_me_utxos_run {blocks : List Block}
    (inputs : ∀ tx ∈ blocks.flatMap Block.txn, tx.txIn ≠ []) :
    ∃ s : UtxoSet, (Proc.each blocks Block.giveMeUtxos).run ∅ = (.ok (), s) ∧ s.Keyed ∧
      s.ledger = Ledger.run Ledger.empty ((blocks.flatMap Block.txn).map Transaction.event) := by
  have each : ∀ b ∈ blocks, ∀ s, b.giveMeUtxos.run s =
      (.ok (), b.txn.foldl (fun s tx => tx.settle s) s) := fun b member =>
    Block.give_me_utxos_eq fun tx listed => inputs tx (List.mem_flatMap.mpr ⟨b, member, listed⟩)
  have applied := Proc.run_each each ∅
  rw [← List.foldl_flatMap] at applied
  obtain ⟨ledger, keyed⟩ := UtxoSet.settle_all (blocks.flatMap Block.txn) ∅
  exact ⟨_, applied, keyed (by simp [UtxoSet.Keyed]), ledger⟩

theorem mem_held {s : UtxoSet} {txs : List Transaction} (distinct : (txs.map Transaction.hash).Nodup)
    (run : s.ledger = Ledger.run Ledger.empty (txs.map Transaction.event)) (txId : Hash)
    (index : Nat) (out : TxOut) : (out, index) ∈ s.held txId ↔ Unspent txs txId index out := by
  rw [← unspent_event distinct, ← Ledger.mem_run, UtxoSet.held, run]
  cases Ledger.run Ledger.empty (txs.map Transaction.event) txId <;> simp

theorem holdings_nodup {s : UtxoSet} {visit : List (Hash × UtxoTuple)} (keyed : s.Keyed)
    (nodup : ∀ txId, (s.held txId).Nodup) (order : s.Enumerates visit) (address : String) :
    (holdings ((visit.map Prod.snd).filterMap (·.kept address))).Nodup := by
  have own : ∀ entry ∈ visit, entry.2.hash = entry.1 := fun entry member =>
    keyed _ _ ((order.2 entry.1 entry.2).mp member)
  have keys : (visit.map Prod.snd).map UtxoTuple.hash = visit.map Prod.fst := by
    simpa using own
  rw [UtxoTuple.holdings_kept, List.nodup_flatMap]
  refine ⟨fun t member => ?_, ?_⟩
  · obtain ⟨entry, visited, rfl⟩ := List.mem_map.mp member
    have stored := (order.2 entry.1 entry.2).mp visited
    have all := nodup entry.1
    rw [UtxoSet.held, UtxoSet.ledger, stored] at all
    exact (all.filter _).map fun a b same => (Prod.mk.inj same).2
  · have distinct := order.1
    rw [← keys, List.Nodup, List.pairwise_map] at distinct
    refine distinct.imp fun {t t'} different x left right => different ?_
    obtain ⟨_, _, rfl⟩ := List.mem_map.mp left
    obtain ⟨_, _, same⟩ := List.mem_map.mp right
    exact (Prod.mk.inj same).1.symm

theorem mem_holdings {s : UtxoSet} {visit : List (Hash × UtxoTuple)} (keyed : s.Keyed)
    (order : s.Enumerates visit) (address : String) (txId : Hash) (index : Nat) (out : TxOut) :
    (txId, out, index) ∈ holdings ((visit.map Prod.snd).filterMap (·.kept address)) ↔
      (out, index) ∈ s.held txId ∧ out.getAddress = .ok address := by
  have stored : (out, index) ∈ s.held txId ↔
      ∃ tuple, s.get txId = some tuple ∧ (out, index) ∈ tuple.utxoSet := by
    rw [UtxoSet.held, UtxoSet.ledger]
    cases s.get txId <;> simp
  rw [UtxoTuple.holdings_kept, stored]
  simp only [List.mem_flatMap, List.mem_map, UtxoTuple.paid, List.mem_filter, decide_eq_true_eq]
  constructor
  · rintro ⟨tuple, ⟨entry, visited, rfl⟩, utxo, ⟨member, pays⟩, same⟩
    obtain ⟨rfl, rfl⟩ := Prod.mk.inj same
    have found := (order.2 entry.1 entry.2).mp visited
    exact ⟨⟨entry.2, by rwa [keyed _ _ found], member⟩, pays⟩
  · rintro ⟨⟨tuple, found, member⟩, pays⟩
    exact ⟨tuple, ⟨(txId, tuple), (order.2 txId tuple).mpr found, rfl⟩, (out, index),
      ⟨member, pays⟩, by rw [keyed _ _ found]⟩

/-- Generating an address fails with a text or panics, and nothing else. -/
theorem get_address_failure {out : TxOut} {e : Failure String} (failed : out.getAddress = .error e)
    (safe : out.getAddress ≠ Outcome.panic) : ∃ text, e = .err text := by
  cases e with
  | err text => exact ⟨text, rfl⟩
  | panic => exact absurd failed safe
  | abort =>
    simp only [TxOut.getAddress, Pubkey.generateAddress] at failed
    split at failed
    · cases failed
    · rename_i long
      rw [Outcome.index_of_lt _ _ (by omega), Outcome.bind_ok] at failed
      split_ifs at failed <;> cases failed

/-- Applied in chain order to the empty set, blocks leave every unspent output once and nothing
else. An account is set to those that pay its address, and its balance is their sum. -/
theorem Block.give_me_utxos_unspent {blocks : List Block}
    (inputs : ∀ tx ∈ blocks.flatMap Block.txn, tx.txIn ≠ [])
    (distinct : ((blocks.flatMap Block.txn).map Transaction.hash).Nodup) :
    ∃ s : UtxoSet, (Proc.each blocks Block.giveMeUtxos).run ∅ = (.ok (), s) ∧
      (∀ txId index out,
        (Unspent (blocks.flatMap Block.txn) txId index out → (s.held txId).count (out, index) = 1) ∧
        (¬Unspent (blocks.flatMap Block.txn) txId index out → (s.held txId).count (out, index) = 0)) ∧
      ∀ (account : Account) (visit : List (Hash × UtxoTuple)), s.Enumerates visit →
        (∀ tx ∈ blocks.flatMap Block.txn, ∀ out ∈ tx.txOut, out.getAddress ≠ Outcome.panic) →
        ∃ utxos, account.setUtxos visit = .ok { account with utxoSet := utxos } ∧
          (∀ txId index out,
            (Unspent (blocks.flatMap Block.txn) txId index out ∧ out.getAddress = .ok account.address →
              (holdings utxos).count (txId, out, index) = 1) ∧
            (¬(Unspent (blocks.flatMap Block.txn) txId index out ∧
                out.getAddress = .ok account.address) →
              (holdings utxos).count (txId, out, index) = 0)) ∧
          (NoOverflow utxos →
            ∃ total, ({ account with utxoSet := utxos } : Account).balance = .ok total ∧
              total.toInt = ((holdings utxos).map (·.2.1.value.toInt)).sum) := by
  obtain ⟨s, applied, keyed, run⟩ := give_me_utxos_run inputs
  have unspent := mem_held distinct run
  have nodup := held_indexed run
  refine ⟨s, applied, fun txId index out => count_of_nodup (nodup txId) (unspent txId index out),
    fun account visit order safe => ?_⟩
  have sound : ∀ entry ∈ visit, ∀ utxo ∈ entry.2.utxoSet, ∀ e,
      utxo.1.getAddress = .error e → ∃ text, e = .err text := by
    intro entry visited utxo member e failed
    have held : utxo ∈ s.held entry.1 := by
      rw [UtxoSet.held, UtxoSet.ledger, (order.2 entry.1 entry.2).mp visited]
      exact member
    obtain ⟨before, tx, after, split, _, listed, _⟩ := (unspent entry.1 utxo.2 utxo.1).mp held
    exact get_address_failure failed
      (safe tx (by rw [split]; simp) utxo.1 (List.mem_of_getElem? listed))
  refine ⟨_, Account.set_utxos_eq account sound, fun txId index out => ?_,
    fun fits => Account.balance_eq fits⟩
  apply count_of_nodup (holdings_nodup keyed nodup order account.address)
  rw [mem_holdings keyed order, unspent]

end Unspent

/-- An output is made in one block and spent in the next, which pays an address in two outputs. -/
def Block.spending [Crates] : List Block :=
  let out : TxOut := ⟨50, ⟨[1]⟩, ⟨[0x51]⟩⟩
  let first := Transaction.mint 1 [out]
  let second := Transaction.pay first.hash 0 [⟨20, ⟨[5]⟩, ⟨[0, 1, 2, 3, 4]⟩⟩, ⟨30, ⟨[5]⟩, ⟨[0, 1, 2, 3, 4]⟩⟩]
  [.mined (U8Array.replicate 32 0) first.hash [first],
    .mined (U8Array.replicate 32 0) second.hash [.mint 2 [], second]]

/-- The address of the script that both outputs of the second block have. -/
def Block.spendingAddress [Crates] : String :=
  let bytes : List UInt8 := [0x6f, 2, 3, 4]
  Crates.bs58Encode (bytes ++ (Crates.sha256 (Crates.sha256 bytes).val).val.take 4)

theorem perm_of_count [BEq α] [LawfulBEq α] {P : α → Prop} {xs ys : List α} (nodup : ys.Nodup)
    (members : ∀ x, x ∈ ys ↔ P x) (counted : ∀ x, (P x → xs.count x = 1) ∧ (¬P x → xs.count x = 0)) : xs.Perm ys := by
  refine List.perm_iff_count.mpr fun x => ?_
  by_cases listed : x ∈ ys
  · rw [(counted x).1 ((members x).mp listed), List.count_eq_one_of_mem nodup listed]
  · rw [(counted x).2 fun holds => listed ((members x).mpr holds), List.count_eq_zero_of_not_mem listed]

theorem Block.spending_spent :
    let _ := Crates.standard
    let first := Transaction.mint 1 [⟨50, ⟨[1]⟩, ⟨[0x51]⟩⟩]
    ¬Unspent (Block.spending.flatMap Block.txn) first.hash 0 ⟨50, ⟨[1]⟩, ⟨[0x51]⟩⟩ := by
  intro _ first
  let out (value : Int64) : TxOut := ⟨value, ⟨[5]⟩, ⟨[0, 1, 2, 3, 4]⟩⟩
  let second := Transaction.pay first.hash 0 [out 20, out 30]
  have txs : Block.spending.flatMap Block.txn = [first, .mint 2 [], second] := rfl
  rw [txs]
  rintro ⟨before, tx, after, split, same, _, unspent⟩
  rcases before with _ | ⟨_, before⟩
  · obtain ⟨rfl, rfl⟩ := List.cons.inj split
    exact unspent second (by simp) (by decide +kernel) _ (List.mem_singleton_self _) rfl
  · have later : tx ∈ [.mint 2 [], second] := by
      rw [(List.cons.inj split).2]
      exact List.mem_append_right _ List.mem_cons_self
    have others : ∀ tx ∈ [.mint 2 [], second], tx.hash ≠ first.hash := by decide +kernel
    exact others tx later same

theorem Block.spending_owned :
    let _ := Crates.standard
    let out (value : Int64) : TxOut := ⟨value, ⟨[5]⟩, ⟨[0, 1, 2, 3, 4]⟩⟩
    let first := Transaction.mint 1 [⟨50, ⟨[1]⟩, ⟨[0x51]⟩⟩]
    let id := (Transaction.pay first.hash 0 [out 20, out 30]).hash
    ∀ held, held ∈ [(id, out 20, 0), (id, out 30, 1)] ↔
      Unspent (Block.spending.flatMap Block.txn) held.1 held.2.2 held.2.1 ∧
        held.2.1.getAddress = .ok Block.spendingAddress := by
  intro _ out first id held
  let second := Transaction.pay first.hash 0 [out 20, out 30]
  have txs : Block.spending.flatMap Block.txn = [first, .mint 2 [], second] := rfl
  rw [txs]
  have unspent (index : Nat) (value : Int64) (listed : second.txOut[index]? = some (out value)) :
      Unspent [first, .mint 2 [], second] id index (out value) :=
    ⟨[first, .mint 2 []], second, [], rfl, rfl, listed, fun later member => absurd member List.not_mem_nil⟩
  have pays (value : Int64) : (out value).getAddress = .ok Block.spendingAddress := rfl
  constructor
  · intro listed
    rcases List.mem_cons.mp listed with rfl | last
    · exact ⟨unspent 0 20 rfl, pays 20⟩
    · rw [List.mem_singleton.mp last]
      exact ⟨unspent 1 30 rfl, pays 30⟩
  · obtain ⟨txId, paid, index⟩ := held
    rintro ⟨⟨before, tx, after, split, rfl, listed, _⟩, address⟩
    have member : tx ∈ [first, .mint 2 [], second] := by rw [split]; simp
    rcases List.mem_cons.mp member with rfl | later
    · obtain rfl := List.mem_singleton.mp (List.mem_of_getElem? listed)
      cases address
    rcases List.mem_cons.mp later with rfl | last
    · cases listed
    · obtain rfl := List.mem_singleton.mp last
      rcases index with _ | _ | index
      · obtain rfl := Option.some.inj listed
        exact List.mem_cons_self
      · obtain rfl := Option.some.inj listed
        exact List.mem_cons_of_mem _ List.mem_cons_self
      · cases listed

/-- An account of this address is given both outputs, and is worth what they are. -/
theorem Block.give_me_utxos_unspent_spending :
    let _ := Crates.standard
    let account : Account := ⟨Block.spendingAddress, [], [], []⟩
    let out (value : Int64) : TxOut := ⟨value, ⟨[5]⟩, ⟨[0, 1, 2, 3, 4]⟩⟩
    let first := Transaction.mint 1 [⟨50, ⟨[1]⟩, ⟨[0x51]⟩⟩]
    let id := (Transaction.pay first.hash 0 [out 20, out 30]).hash
    ∃ (s : UtxoSet) (visit : List (Hash × UtxoTuple)) (utxos : List UtxoTuple) (total : Int64),
      (Proc.each Block.spending Block.giveMeUtxos).run ∅ = (.ok (), s) ∧ s.Enumerates visit ∧
      (s.held first.hash).count (⟨50, ⟨[1]⟩, ⟨[0x51]⟩⟩, 0) = 0 ∧
      account.setUtxos visit = .ok { account with utxoSet := utxos } ∧
      (holdings utxos).Perm [(id, out 20, 0), (id, out 30, 1)] ∧
      ({ account with utxoSet := utxos } : Account).balance = .ok total ∧ total.toInt = 50 := by
  intro _ account out first id
  obtain ⟨s, applied, held, accounts⟩ := @Block.give_me_utxos_unspent _ Block.spending
    (by decide +kernel) (by decide +kernel)
  obtain ⟨visit, order⟩ := HashMap.exists_enumerates s
  obtain ⟨utxos, set, owned, exact⟩ := accounts account visit order (by decide +kernel)
  have perm : (holdings utxos).Perm [(id, out 20, 0), (id, out 30, 1)] :=
    perm_of_count (by simp) Block.spending_owned fun entry => owned entry.1 entry.2.2 entry.2.1
  have fits : NoOverflow utxos := by
    refine (noOverflow_iff_of_nonneg fun held member => ?_).mpr ?_
    · rcases List.mem_cons.mp (perm.mem_iff.mp member) with rfl | last
      · decide
      · obtain rfl := List.mem_singleton.mp last
        decide
    · rw [(perm.map _).sum_eq]
      decide
  obtain ⟨total, summed, worth⟩ := exact fits
  refine ⟨s, visit, utxos, total, applied, order, (held _ _ _).2 Block.spending_spent, set, perm, summed, ?_⟩
  rw [worth, (perm.map _).sum_eq]
  rfl

end BitcoinNode
