import BitcoinNode.PeerThreads
import BitcoinNode.UnspentOutputs

/-! Which steps of two peer threads may change places. The accounts are looked at only as far as
they decide whether a thread goes on. -/
namespace BitcoinNode

open Thread (Commute)

/-- Steps whose order shows in the chain: `later` is left for after `earlier`. -/
def Access.Clash [Crates] : (later earlier : Access) → Prop
  | .pushHeader header', .headerIsNotIncluded header => header' = header
  | .headerIsNotIncluded _, .pushHeader _ | .pushHeader _, .pushHeader _
  | .pushHeader _, .insertHeight _ | .insertHeight _, .pushHeader _ => True
  | .loadUtxos tx, .containsKey txId | .containsKey txId, .loadUtxos tx
  | .loadUtxos tx, .removeUtxo txId _ | .removeUtxo txId _, .loadUtxos tx => txId = tx.hash
  | .loadUtxos tx', .loadUtxos tx => tx'.hash = tx.hash ∧ tx' ≠ tx
  | .includeNewBlock block', .includeNewBlock block => block'.hash = block.hash ∧ block' ≠ block
  | _, _ => False

/-- Steps that can make a visit of the accounts fail, or that fail after it. -/
def Access.OfAccounts : Access → Prop
  | .removeUtxo _ _ | .loadUtxos _ | .updateAccountsUtxoSet | .containsPendingTx _ => True
  | _ => False

/-- Where a visit of the accounts can panic, its order with other steps shows as well. -/
def Access.Conflicts [Crates] (panics : Prop) (later earlier : Access) : Prop :=
  later.Clash earlier ∨
    panics ∧ (later = .updateAccountsUtxoSet ∧ earlier.OfAccounts ∨
      earlier = .updateAccountsUtxoSet ∧ later.OfAccounts)

theorem UtxoTuple.remove_utxo_comm (t : UtxoTuple) (i j : Nat) :
    (t.removeUtxo i).removeUtxo j = (t.removeUtxo j).removeUtxo i := by
  by_cases same : i = j
  · rw [same]
  have apart : ∀ utxo ∈ t.utxoSet, ¬decide (utxo.2 = i) = true ∨ ¬decide (utxo.2 = j) = true := by
    intro utxo _
    simp only [decide_eq_true_eq]
    omega
  simp only [removeUtxo]
  rw [List.eraseP_comm apart]

section Commute

variable [Crates]

theorem Access.commute {later earlier : Access} (peaceful : ¬later.Clash earlier)
    (checks : ∀ header', later = .pushHeader header' → ∀ header, earlier ≠ .headerIsNotIncluded header) :
    Commute Access.onChain later earlier := by
  have kept {tx : Transaction} {txId : Hash} (other : ¬txId = tx.hash) (utxoSet : UtxoSet) :
      (tx.loadUtxos utxoSet).get txId = utxoSet.get txId :=
    HashMap.get_insert_of_ne utxoSet other _
  have removed {tx : Transaction} {txId : Hash} (other : ¬txId = tx.hash) (index : Nat)
      (utxoSet : UtxoSet) : (tx.loadUtxos utxoSet).modify txId (·.removeUtxo index) =
        tx.loadUtxos (utxoSet.modify txId (·.removeUtxo index)) :=
    HashMap.modify_insert_of_ne utxoSet other _ _
  cases later <;> cases earlier <;> first
    | exact ⟨fun _ => rfl, fun _ => rfl, fun _ => rfl⟩
    | exact absurd trivial peaceful
    | skip
  case pushHeader.headerIsNotIncluded => exact absurd rfl (checks _ rfl _)
  case insertHeight.insertHeight header' header =>
    refine ⟨fun chain => ?_, fun _ => rfl, fun _ => rfl⟩
    simp only [onChain]
    rw [HashMap.insert_comm _ fun _ => rfl]
  case containsKey.removeUtxo txId' txId index =>
    exact .of_read (fun _ => rfl) fun chain => HashMap.isSome_get_modify _ txId txId' _
  case removeUtxo.containsKey txId' index txId =>
    exact .symm (.of_read (fun _ => rfl) fun chain => HashMap.isSome_get_modify _ txId' txId _)
  case containsKey.loadUtxos txId tx =>
    exact .of_read (fun _ => rfl) fun chain => congrArg Option.isSome (kept peaceful chain.utxoSet)
  case loadUtxos.containsKey tx txId =>
    exact .symm (.of_read (fun _ => rfl) fun chain => congrArg Option.isSome (kept peaceful chain.utxoSet))
  case removeUtxo.removeUtxo txId' index' txId index =>
    refine ⟨fun chain => ?_, fun _ => rfl, fun _ => rfl⟩
    simp only [onChain]
    rw [HashMap.modify_comm _ fun t => UtxoTuple.remove_utxo_comm t index index']
  case removeUtxo.loadUtxos txId index tx =>
    refine ⟨fun chain => ?_, fun _ => rfl, fun _ => rfl⟩
    simp only [onChain, removed peaceful]
  case loadUtxos.removeUtxo tx txId index =>
    refine ⟨fun chain => ?_, fun _ => rfl, fun _ => rfl⟩
    simp only [onChain, removed peaceful]
  case loadUtxos.loadUtxos tx' tx =>
    refine ⟨fun chain => ?_, fun _ => rfl, fun _ => rfl⟩
    have same (keys : tx.hash = tx'.hash) : tx = tx' :=
      Classical.byContradiction fun other => peaceful ⟨keys.symm, Ne.symm other⟩
    simp only [onChain, Transaction.loadUtxos]
    rw [HashMap.insert_comm _ fun keys => by rw [same keys]]
  case includeNewBlock.includeNewBlock block' block =>
    refine ⟨fun chain => ?_, fun _ => rfl, fun _ => rfl⟩
    have same (keys : block.hash = block'.hash) : block = block' :=
      Classical.byContradiction fun other => peaceful ⟨keys.symm, Ne.symm other⟩
    simp only [onChain, BitcoinNode.includeNewBlock]
    rw [HashMap.insert_comm _ same]

end Commute

section Accounts

variable [Crates]

def TxOut.Readable (out : TxOut) : Prop := out.getAddress ≠ Outcome.panic

def UtxoSet.Readable (utxoSet : UtxoSet) : Prop :=
  ∀ txId t, utxoSet.get txId = some t → ∀ utxo ∈ t.utxoSet, utxo.1.Readable

theorem TxOut.Readable.failure {out : TxOut} (readable : out.Readable) (e : Failure String)
    (failed : out.getAddress = .error e) : ∃ text, e = .err text := get_address_failure failed readable

theorem UtxoTuple.referenced_utxos_panic {t : UtxoTuple} {utxo : TxOut × Nat}
    (member : utxo ∈ t.utxoSet) (panics : utxo.1.getAddress = Outcome.panic) (address : String) :
    t.referencedUtxos address = Outcome.panic := by
  rw [referencedUtxos, Outcome.collect_panic _ member (by rw [panics]; rfl)]
  · rfl
  intro other _
  rcases read : other.1.getAddress with e | value
  · by_cases readable : other.1.Readable
    · obtain ⟨text, rfl⟩ := readable.failure e read
      exact .inr ⟨none, rfl⟩
    · rw [TxOut.Readable, not_not, read] at readable
      exact .inl (by rw [readable]; rfl)
  · exact .inr ⟨_, rfl⟩

theorem Account.set_utxos_fails {utxoSet : UtxoSet} {visit : List (Hash × UtxoTuple)}
    (visits : HashMap.Enumerates utxoSet visit) (account : Account) :
    (utxoSet.Readable → ∃ account', account.setUtxos visit = .ok account') ∧
      (¬utxoSet.Readable → account.setUtxos visit = Outcome.panic) := by
  refine ⟨fun readable => ?_, fun unreadable => ?_⟩
  · refine ⟨_, Account.set_utxos_eq account fun entry member utxo inside => ?_⟩
    exact (readable _ _ ((visits.2 entry.1 entry.2).mp member) utxo inside).failure
  · simp only [UtxoSet.Readable, not_forall] at unreadable
    obtain ⟨txId, t, held, utxo, inside, panics⟩ := unreadable
    rw [TxOut.Readable, not_not] at panics
    have here := UtxoTuple.referenced_utxos_panic inside panics account.address
    rw [Account.setUtxos, Outcome.collect_panic _ ((visits.2 txId t).mpr held) here]
    · rfl
    rintro ⟨txId', t'⟩ _
    by_cases readable : ∀ utxo ∈ t'.utxoSet, utxo.1.Readable
    · exact .inr ⟨_, UtxoTuple.referenced_utxos_eq account.address fun utxo inside =>
        (readable utxo inside).failure⟩
    · simp only [not_forall] at readable
      obtain ⟨utxo', inside', panics'⟩ := readable
      rw [TxOut.Readable, not_not] at panics'
      exact .inl (UtxoTuple.referenced_utxos_panic inside' panics' account.address)

theorem set_all_utxos_length (visit : List (Hash × UtxoTuple)) (accounts : List Account) :
    (setAllUtxos visit accounts).2.length = accounts.length := by
  induction accounts with
  | nil => rfl
  | cons account rest ih =>
    rw [setAllUtxos]
    split
    · simp [ih]
    · rfl

theorem set_all_utxos_readable {utxoSet : UtxoSet} {visit : List (Hash × UtxoTuple)}
    (visits : HashMap.Enumerates utxoSet visit) (readable : utxoSet.Readable) (accounts : List Account) :
    (setAllUtxos visit accounts).1 = .ok () := by
  induction accounts with
  | nil => rfl
  | cons account rest ih =>
    obtain ⟨account', set⟩ := (account.set_utxos_fails visits).1 readable
    rw [setAllUtxos, set]
    exact ih

theorem set_all_utxos_panic {utxoSet : UtxoSet} {visit : List (Hash × UtxoTuple)}
    (visits : HashMap.Enumerates utxoSet visit) (unreadable : ¬utxoSet.Readable)
    {accounts : List Account} (some : accounts ≠ []) :
    (setAllUtxos visit accounts).1 = Outcome.panic := by
  obtain ⟨account, rest, rfl⟩ := List.exists_cons_of_ne_nil some
  rw [setAllUtxos, (account.set_utxos_fails visits).2 unreadable]
  rfl

/-- The chain, and whether the accounts can still be locked. -/
structure Sight where
  chain : Blockchain
  poisoned : Bool

def NodeDataPointers.sight (s : NodeDataPointers) : Sight := ⟨s.blockchain, s.accountsPoisoned⟩

open Classical in
/-- A step on what is seen, where `fails` says on which utxo sets a visit of the accounts panics. -/
noncomputable def Access.seen (fails : UtxoSet → Prop) (access : Access) (v : Sight) :
    Outcome NodeCustomErrors Bool × Sight :=
  match access with
  | updateAccountsUtxoSet =>
    if v.poisoned then (Outcome.fail BitcoinNode.poisoned, v)
    else if fails v.chain.utxoSet then (Outcome.panic, { v with poisoned := true })
    else (.ok true, v)
  | containsPendingTx _ =>
    if v.poisoned then (Outcome.fail BitcoinNode.poisoned, v) else (.ok true, v)
  | access => (.ok (access.onChain v.chain).1, { v with chain := (access.onChain v.chain).2 })

theorem Access.seen_pending {fails : UtxoSet → Prop} {v : Sight} {tx : Transaction}
    (alive : v.poisoned = false) : (Access.containsPendingTx tx).seen fails v = (.ok true, v) := by
  simp only [seen, alive, Bool.false_eq_true, if_false]

theorem Access.seen_pending_poisoned {fails : UtxoSet → Prop} {v : Sight} {tx : Transaction}
    (dead : v.poisoned = true) :
    (Access.containsPendingTx tx).seen fails v = (Outcome.fail BitcoinNode.poisoned, v) := by
  simp only [seen, dead, if_true]

theorem Access.seen_visit_poisoned {fails : UtxoSet → Prop} {v : Sight} (dead : v.poisoned = true) :
    Access.updateAccountsUtxoSet.seen fails v = (Outcome.fail BitcoinNode.poisoned, v) := by
  simp only [seen, dead, if_true]

theorem Access.seen_visit {fails : UtxoSet → Prop} {v : Sight} (reads : ¬fails v.chain.utxoSet)
    (alive : v.poisoned = false) : Access.updateAccountsUtxoSet.seen fails v = (.ok true, v) := by
  simp only [seen, alive, if_neg reads, Bool.false_eq_true, if_false]

theorem Access.seen_visit_panic {fails : UtxoSet → Prop} {v : Sight} (panics : fails v.chain.utxoSet)
    (alive : v.poisoned = false) :
    Access.updateAccountsUtxoSet.seen fails v = (Outcome.panic, { v with poisoned := true }) := by
  simp only [seen, alive, if_pos panics, Bool.false_eq_true, if_false]

/-- A step loads no script that a visit of the accounts panics on. -/
def Access.Readable : Access → Prop
  | .loadUtxos tx => ∀ out ∈ tx.txOut, out.Readable
  | _ => True

theorem Access.Readable.onChain {access : Access} (readable : access.Readable) {chain : Blockchain}
    (before : chain.utxoSet.Readable) : (access.onChain chain).2.utxoSet.Readable := by
  cases access with
  | removeUtxo txId index =>
    intro txId' t held utxo inside
    simp only [Access.onChain] at held
    by_cases here : txId' = txId
    · subst here
      rw [HashMap.get_modify] at held
      obtain ⟨t', held', rfl⟩ := Option.map_eq_some_iff.mp held
      exact before _ t' held' utxo (List.mem_of_mem_eraseP inside)
    · rw [HashMap.get_modify_of_ne _ here] at held
      exact before txId' t held utxo inside
  | loadUtxos tx =>
    intro txId' t held utxo inside
    simp only [Access.onChain, Transaction.loadUtxos] at held
    by_cases here : txId' = tx.hash
    · subst here
      rw [HashMap.get_insert] at held
      obtain rfl := Option.some.inj held
      exact readable utxo.1 (List.fst_mem_of_mem_zipIdx inside)
    · rw [HashMap.get_insert_of_ne _ here] at held
      exact before txId' t held utxo inside
  | _ => exact before

/-- Where no account is `idle`, a visit reads the scripts; unless it `panics`, all can be read. -/
structure Sighted (panics idle : Prop) (s : NodeDataPointers) : Prop where
  accounts : s.accounts = [] ↔ idle
  readable : ¬panics → idle ∨ s.blockchain.utxoSet.Readable

theorem update_accounts_sight {order : UtxoSet → List (Hash × UtxoTuple)}
    (visits : ∀ utxoSet, HashMap.Enumerates utxoSet (order utxoSet)) {panics idle : Prop}
    (some : panics → ¬idle) {s : NodeDataPointers} (sighted : Sighted panics idle s) :
    (Access.updateAccountsUtxoSet.act order s).1 =
        (Access.updateAccountsUtxoSet.seen (fun utxoSet => panics ∧ ¬utxoSet.Readable) s.sight).1 ∧
      (Access.updateAccountsUtxoSet.act order s).2.sight =
        (Access.updateAccountsUtxoSet.seen (fun utxoSet => panics ∧ ¬utxoSet.Readable) s.sight).2 ∧
      Sighted panics idle (Access.updateAccountsUtxoSet.act order s).2 := by
  have visit := visits s.blockchain.utxoSet
  have same : (setAllUtxos (order s.blockchain.utxoSet) s.accounts).2 = [] ↔ idle := by
    rw [← List.length_eq_zero_iff, set_all_utxos_length, List.length_eq_zero_iff]
    exact sighted.accounts
  by_cases dead : s.accountsPoisoned
  · simp [Access.act, Access.seen, updateAccountsUtxoSet, dead, NodeDataPointers.sight, sighted,
      Outcome.fail, Except.map]
  by_cases fails : panics ∧ ¬s.blockchain.utxoSet.Readable
  · have panicked := set_all_utxos_panic visit fails.2 (mt sighted.accounts.mp (some fails.1))
    rcases set : setAllUtxos (order s.blockchain.utxoSet) s.accounts with ⟨result, accounts⟩
    rw [set] at same panicked
    subst panicked
    rw [Access.seen_visit_panic fails (Bool.eq_false_iff.mpr dead)]
    simp only [Access.act, updateAccountsUtxoSet, dead, set, Outcome.panic, Except.map, Failure.widen,
      Bool.false_eq_true, if_false, true_and]
    exact ⟨rfl, same, sighted.readable⟩
  · have returned : (setAllUtxos (order s.blockchain.utxoSet) s.accounts).1 = .ok () := by
      by_cases readable : s.blockchain.utxoSet.Readable
      · exact set_all_utxos_readable visit readable s.accounts
      · have quiet : ¬panics := fun panics => fails ⟨panics, readable⟩
        rw [sighted.accounts.mpr ((sighted.readable quiet).resolve_right readable)]
        rfl
    rcases set : setAllUtxos (order s.blockchain.utxoSet) s.accounts with ⟨result, accounts⟩
    rw [set] at same returned
    subst returned
    rw [Access.seen_visit fails (Bool.eq_false_iff.mpr dead)]
    simp only [Access.act, updateAccountsUtxoSet, dead, set, Except.map, Bool.false_eq_true, if_false,
      true_and]
    refine ⟨?_, same, sighted.readable⟩
    simp only [NodeDataPointers.sight, dead]

theorem Access.sight {order : UtxoSet → List (Hash × UtxoTuple)}
    (visits : ∀ utxoSet, HashMap.Enumerates utxoSet (order utxoSet)) {panics idle : Prop}
    (some : panics → ¬idle) (access : Access) (s : NodeDataPointers)
    (safe : ¬panics → idle ∨ access.Readable) (sighted : Sighted panics idle s) :
    (access.act order s).1 = (access.seen (fun utxoSet => panics ∧ ¬utxoSet.Readable) s.sight).1 ∧
      (access.act order s).2.sight =
        (access.seen (fun utxoSet => panics ∧ ¬utxoSet.Readable) s.sight).2 ∧
      Sighted panics idle (access.act order s).2 := by
  have loaded : ¬panics → idle ∨ (access.onChain s.blockchain).2.utxoSet.Readable := fun quiet =>
    (sighted.readable quiet).elim .inl fun before => (safe quiet).imp id fun readable =>
      readable.onChain before
  cases access with
  | updateAccountsUtxoSet => exact update_accounts_sight visits some sighted
  | containsPendingTx tx =>
    by_cases dead : s.accountsPoisoned
    · simp [Access.act, Access.seen, dead, NodeDataPointers.sight, sighted]
    · simp only [Access.act, Access.seen, dead, NodeDataPointers.sight, Bool.false_eq_true, if_false,
        true_and]
      exact ⟨by rw [List.map_eq_nil_iff]; exact sighted.accounts, sighted.readable⟩
  | _ => exact ⟨rfl, rfl, sighted.accounts, loaded⟩

theorem Access.seen_poisoned {fails : UtxoSet → Prop} (access : Access)
    (harmless : access = .updateAccountsUtxoSet → ∀ utxoSet, ¬fails utxoSet) (v : Sight) :
    (access.seen fails v).2.poisoned = v.poisoned := by
  cases access with
  | updateAccountsUtxoSet =>
    simp only [seen, if_neg (harmless rfl v.chain.utxoSet)]
    split_ifs <;> rfl
  | containsPendingTx tx =>
    simp only [seen]
    split_ifs <;> rfl
  | _ => rfl

/-- Looks at the pending transactions, and visits that cannot panic, only read. -/
theorem Access.pending_commute {fails : UtxoSet → Prop} (tx : Transaction) {other : Access}
    (harmless : other = .updateAccountsUtxoSet → ∀ utxoSet, ¬fails utxoSet) :
    Commute (Access.seen fails) (.containsPendingTx tx) other := by
  refine .of_read (fun v => ?_) fun v => ?_
  · simp only [seen]
    split_ifs <;> rfl
  · have same := seen_poisoned _ harmless v
    cases dead : v.poisoned with
    | false => rw [seen_pending (same.trans dead), seen_pending dead]
    | true => rw [seen_pending_poisoned (same.trans dead), seen_pending_poisoned dead]

theorem Access.visit_commute {fails : UtxoSet → Prop} (harmless : ∀ utxoSet, ¬fails utxoSet)
    (other : Access) : Commute (Access.seen fails) .updateAccountsUtxoSet other := by
  refine .of_read (fun v => ?_) fun v => ?_
  · simp only [seen, if_neg (harmless v.chain.utxoSet)]
    split_ifs <;> rfl
  · have same := seen_poisoned other (fun _ => harmless) v
    cases dead : v.poisoned with
    | false => rw [seen_visit (harmless _) (same.trans dead), seen_visit (harmless _) dead]
    | true => rw [seen_visit_poisoned (same.trans dead), seen_visit_poisoned dead]

/-- A visit that can panic sees the utxo set and nothing else of the chain. -/
theorem Access.seen_visit_chain (fails : UtxoSet → Prop) {chain chain' : Blockchain}
    (same : chain'.utxoSet = chain.utxoSet) (poisoned : Bool) :
    Access.updateAccountsUtxoSet.seen fails ⟨chain', poisoned⟩ =
      ((Access.updateAccountsUtxoSet.seen fails ⟨chain, poisoned⟩).1,
        ⟨chain', (Access.updateAccountsUtxoSet.seen fails ⟨chain, poisoned⟩).2.poisoned⟩) ∧
      (Access.updateAccountsUtxoSet.seen fails ⟨chain, poisoned⟩).2.chain = chain := by
  cases poisoned with
  | true =>
    rw [seen_visit_poisoned rfl, seen_visit_poisoned rfl]
    exact ⟨rfl, rfl⟩
  | false =>
    by_cases panics : fails chain.utxoSet
    · have panics' : fails chain'.utxoSet := same ▸ panics
      rw [seen_visit_panic panics' rfl, seen_visit_panic panics rfl]
      exact ⟨rfl, rfl⟩
    · have reads : ¬fails chain'.utxoSet := same ▸ panics
      rw [seen_visit reads rfl, seen_visit panics rfl]
      exact ⟨rfl, rfl⟩

theorem Access.visit_commute_other (fails : UtxoSet → Prop) {other : Access} (apart : ¬other.OfAccounts) :
    Commute (Access.seen fails) .updateAccountsUtxoSet other := by
  obtain ⟨step, kept⟩ : (∀ v, other.seen fails v =
      (.ok (other.onChain v.chain).1, ⟨(other.onChain v.chain).2, v.poisoned⟩)) ∧
      ∀ chain, (other.onChain chain).2.utxoSet = chain.utxoSet := by
    cases other with
    | removeUtxo | loadUtxos | updateAccountsUtxoSet | containsPendingTx => exact absurd trivial apart
    | _ => exact ⟨fun _ => rfl, fun _ => rfl⟩
  have visit (v : Sight) := seen_visit_chain fails (kept v.chain) v.poisoned
  refine ⟨fun v => ?_, fun v => ?_, fun v => ?_⟩
  · rw [step, step, (visit v).1, (visit v).2]
  · rw [step, (visit v).1]
  · rw [step, step, (visit v).2]

theorem Access.commute_seen {fails : UtxoSet → Prop} {panics : Prop}
    (quiet : ¬panics → ∀ utxoSet, ¬fails utxoSet) {later earlier : Access}
    (peaceful : ¬later.Conflicts panics earlier)
    (checks : ∀ header', later = .pushHeader header' → ∀ header, earlier ≠ .headerIsNotIncluded header) :
    Commute (Access.seen fails) later earlier := by
  by_cases visits : later = .updateAccountsUtxoSet
  · subst visits
    by_cases may : panics
    · exact visit_commute_other fails fun accounts => peaceful (.inr ⟨may, .inl ⟨rfl, accounts⟩⟩)
    · exact visit_commute (quiet may) earlier
  by_cases visited : earlier = .updateAccountsUtxoSet
  · subst visited
    by_cases may : panics
    · exact (visit_commute_other fails fun accounts => peaceful (.inr ⟨may, .inr ⟨rfl, accounts⟩⟩)).symm
    · exact (visit_commute (quiet may) later).symm
  have chain : Commute Access.onChain later earlier :=
    commute (fun clash => peaceful (.inl clash)) checks
  cases later with
  | containsPendingTx tx => exact pending_commute tx fun visit => absurd visit visited
  | updateAccountsUtxoSet => exact absurd rfl visits
  | _ =>
    cases earlier with
    | containsPendingTx tx => exact (pending_commute tx fun visit => absurd visit visits).symm
    | updateAccountsUtxoSet => exact absurd rfl visited
    | _ =>
      exact ⟨fun v => congrArg (Sight.mk · v.poisoned) (chain.state v.chain),
        fun v => congrArg Except.ok (chain.answer v.chain),
        fun v => congrArg Except.ok (chain.answer' v.chain)⟩

end Accounts

end BitcoinNode
