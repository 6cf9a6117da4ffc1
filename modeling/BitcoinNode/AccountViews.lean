import BitcoinNode.PeerConflicts
import BitcoinNode.SpendableOutputs

/-! An account that is added while blocks arrive. Its outputs are read before it is in the list that the
handlers of block messages visit, so that it misses what they change in between. -/
namespace BitcoinNode

def Outcome.Returned (result : Outcome ε α) : Prop := (∃ a, result = .ok a) ∨ ∃ err, result = .error (.err err)

theorem Outcome.widen_not_returned {e : Failure Empty} : ¬Outcome.Returned (.error e.widen : Outcome ε α) := by
  rintro (⟨a, same⟩ | ⟨err, same⟩)
  · cases same
  · rcases e with empty | _ | _
    · exact empty.elim
    · cases same
    · cases same

theorem HashMap.Enumerates.perm [DecidableEq κ] {m : HashMap κ ν} {visit visit' : List (κ × ν)}
    (visits : m.Enumerates visit) (visits' : m.Enumerates visit') : visit.Perm visit' :=
  (List.perm_ext_iff_of_nodup visits.1.of_map visits'.1.of_map).mpr fun entry =>
    (visits.2 entry.1 entry.2).trans (visits'.2 entry.1 entry.2).symm

theorem HashMap.Enumerates.nil [DecidableEq κ] {visit : List (κ × ν)}
    (visits : HashMap.Enumerates (∅ : HashMap κ ν) visit) : visit = [] :=
  List.eq_nil_iff_forall_not_mem.mpr fun entry listed => by
    have held := (visits.2 entry.1 entry.2).mp listed
    rw [HashMap.get_empty] at held
    cases held

section AccountViews

variable [Crates]

/-- The account holds what `utxosReferencedToAccount` finds, up to order. -/
def Account.Current (account : Account) (utxoSet : UtxoSet) : Prop :=
  ∀ visit, HashMap.Enumerates utxoSet visit → ∃ utxos,
    utxosReferencedToAccount visit account.address = .ok utxos ∧ account.utxoSet.Perm utxos

theorem utxos_referenced_to_account_eq_ok {utxoSet : UtxoSet} {visit : List (Hash × UtxoTuple)}
    (visits : HashMap.Enumerates utxoSet visit) {address : String} {utxos : List UtxoTuple} :
    utxosReferencedToAccount visit address = .ok utxos ↔
      utxoSet.Readable ∧ utxos = (visit.map Prod.snd).filterMap (·.kept address) := by
  have total (readable : utxoSet.Readable) : utxosReferencedToAccount visit address =
      .ok ((visit.map Prod.snd).filterMap (·.kept address)) := by
    rw [utxosReferencedToAccount, Outcome.collect_eq fun entry member =>
      UtxoTuple.referenced_utxos_eq address fun utxo inside =>
        (readable _ _ ((visits.2 entry.1 entry.2).mp member) utxo inside).failure, List.filterMap_map]
    rfl
  constructor
  · intro read
    have readable : utxoSet.Readable := by
      by_contra unreadable
      have panics := ((⟨address, [], [], []⟩ : Account).set_utxos_fails visits).2 unreadable
      rw [Account.set_utxos_eq_load, read] at panics
      cases panics
    exact ⟨readable, Except.ok.inj (read.symm.trans (total readable))⟩
  · rintro ⟨readable, rfl⟩
    exact total readable

theorem Account.Current.of_read {account : Account} {utxoSet : UtxoSet} {visit : List (Hash × UtxoTuple)}
    (visits : HashMap.Enumerates utxoSet visit)
    (read : utxosReferencedToAccount visit account.address = .ok account.utxoSet) :
    account.Current utxoSet := by
  intro visit' visits'
  obtain ⟨readable, same⟩ := (utxos_referenced_to_account_eq_ok visits).mp read
  refine ⟨_, (utxos_referenced_to_account_eq_ok visits').mpr ⟨readable, rfl⟩, ?_⟩
  rw [same]
  exact ((visits.perm visits').map _).filterMap _

theorem set_all_utxos_current {utxoSet : UtxoSet} {visit : List (Hash × UtxoTuple)}
    (visits : HashMap.Enumerates utxoSet visit) {accounts : List Account}
    (set : (setAllUtxos visit accounts).1 = .ok ()) :
    ∀ account ∈ (setAllUtxos visit accounts).2, account.Current utxoSet := by
  induction accounts with
  | nil => exact fun account member => nomatch member
  | cons account rest ih =>
    rw [setAllUtxos] at set ⊢
    rcases own : account.setUtxos visit with e | account' <;> rw [own] at set
    · cases set
    · rw [Account.set_utxos_eq_load] at own
      obtain ⟨utxos, read, same⟩ := Outcome.bind_eq_ok.mp own
      obtain rfl := Except.ok.inj same
      exact List.forall_mem_cons.mpr ⟨.of_read visits read, ih set⟩

theorem set_all_utxos_addresses (visit : List (Hash × UtxoTuple)) (accounts : List Account) :
    (setAllUtxos visit accounts).2.map Account.address = accounts.map Account.address := by
  induction accounts with
  | nil => rfl
  | cons account rest ih =>
    rw [setAllUtxos]
    rcases own : account.setUtxos visit with e | account'
    · rfl
    · rw [Account.set_utxos_eq_load] at own
      obtain ⟨utxos, _, same⟩ := Outcome.bind_eq_ok.mp own
      obtain rfl := Except.ok.inj same
      exact congrArg (account.address :: ·) ih

theorem Account.confirm_same (tx : Transaction) (account : Account) :
    (account.confirm tx).address = account.address ∧ (account.confirm tx).utxoSet = account.utxoSet := by
  rw [confirm]
  split
  · split <;> exact ⟨rfl, rfl⟩
  · exact ⟨rfl, rfl⟩

theorem Account.confirm_current {account : Account} {utxoSet : UtxoSet} (current : account.Current utxoSet)
    (tx : Transaction) : (account.confirm tx).Current utxoSet := by
  rw [Current, (account.confirm_same tx).1, (account.confirm_same tx).2]
  exact current

end AccountViews

/-- The step writes the utxo set. -/
def Access.Changes : Access → Prop
  | .removeUtxo _ _ | .loadUtxos _ => True
  | _ => False

namespace PeerThread

/-- The thread visits the accounts before it returns. -/
def Owes : PeerThread → Prop
  | .done result => ¬result.Returned
  | .call access next => access = .updateAccountsUtxoSet ∨ ∀ answer, Owes (next (.ok answer))

/-- What the thread changes, it shows to the accounts afterwards, and an error ends it. -/
def Pays : PeerThread → Prop
  | .done _ => True
  | .call access next => (access.Changes → ∀ answer, Owes (next (.ok answer))) ∧
    (∀ e, next (.error e) = .done (.error e)) ∧ ∀ answer, Pays (next answer)

variable {next : PeerThread}

theorem owes_perform {access : Access} {rest : Bool → PeerThread} (later : ∀ answer, (rest answer).Owes) :
    (perform access rest).Owes := .inr later

theorem owes_visit (rest : Bool → PeerThread) : (perform .updateAccountsUtxoSet rest).Owes := .inl rfl

theorem pays_perform {access : Access} {rest : Bool → PeerThread}
    (shown : access.Changes → ∀ answer, (rest answer).Owes) (later : ∀ answer, (rest answer).Pays) :
    (perform access rest).Pays := by
  refine ⟨shown, fun _ => rfl, fun answer => ?_⟩
  cases answer with
  | error => trivial
  | ok answer => exact later answer

theorem pays_remove_utxos (owes : next.Owes) (pays : next.Pays) (txIn : List TxIn) :
    (removeUtxos txIn next).Owes ∧ (removeUtxos txIn next).Pays := by
  induction txIn with
  | nil => exact ⟨owes, pays⟩
  | cons txin rest ih =>
    constructor
    · refine owes_perform fun held => ?_
      cases held with
      | false => exact ih.1
      | true => exact owes_perform fun _ => ih.1
    · refine pays_perform nofun fun held => ?_
      cases held with
      | false => exact ih.2
      | true => exact pays_perform (fun _ _ => ih.1) fun _ => ih.2

theorem pays_give_me_utxos (owes : next.Owes) (pays : next.Pays) (txn : List Transaction) :
    (giveMeUtxos txn next).Owes ∧ (giveMeUtxos txn next).Pays := by
  induction txn with
  | nil => exact ⟨owes, pays⟩
  | cons tx rest ih =>
    have load : (perform (.loadUtxos tx) fun _ => giveMeUtxos rest next).Owes ∧
        (perform (.loadUtxos tx) fun _ => giveMeUtxos rest next).Pays :=
      ⟨owes_perform fun _ => ih.1, pays_perform (fun _ _ => ih.1) fun _ => ih.2⟩
    rw [giveMeUtxos]
    rcases tx.isCoinbaseTransaction with e | _ | _
    · exact ⟨Outcome.widen_not_returned, trivial⟩
    · exact pays_remove_utxos load.1 load.2 tx.txIn
    · exact load

theorem pays_contains_pending_tx (pays : next.Pays) (txn : List Transaction) : (containsPendingTx txn next).Pays := by
  induction txn with
  | nil => exact pays
  | cons tx rest ih => exact pays_perform nofun fun _ => ih

theorem pays_settle_new_block (b : Block) : (settleNewBlock b).Pays := by
  have included : (perform (.includeNewBlock b) fun _ => .done (.ok ())).Pays := pays_perform nofun fun _ => trivial
  have visit : (perform .updateAccountsUtxoSet fun _ => containsPendingTx b.txn <|
      perform (.includeNewBlock b) fun _ => .done (.ok ())).Pays :=
    pays_perform nofun fun _ => pays_contains_pending_tx included b.txn
  exact (pays_give_me_utxos (owes_visit _) visit b.txn).2

theorem pays_handle_block_message [Crates] (payload : List UInt8) : (handleBlockMessage payload).Pays := by
  rw [handleBlockMessage]
  split
  · trivial
  · split
    · trivial
    · trivial
    · refine pays_perform False.elim fun unknown => ?_
      cases unknown with
      | false => trivial
      | true => exact pays_perform False.elim fun _ => pays_perform False.elim fun _ => pays_settle_new_block _

end PeerThread

section Race

variable [Crates]

/-- What a step of a handler does to the outputs and to the accounts. -/
inductive Access.Effect (s : NodeDataPointers) (access : Access) :
    Outcome NodeCustomErrors Bool → NodeDataPointers → Prop where
  | lockedOut (dead : s.accountsPoisoned = true) (err : NodeCustomErrors) : Effect s access (.error (.err err)) s
  | panics {e : Failure Empty} {s' : NodeDataPointers} (dead : s'.accountsPoisoned = true) :
    Effect s access (.error e.widen) s'
  | shows {answer : Bool} {s' : NodeDataPointers} (visit : access = .updateAccountsUtxoSet)
    (same : s'.blockchain.utxoSet = s.blockchain.utxoSet) (alive : s'.accountsPoisoned = s.accountsPoisoned)
    (current : ∀ account ∈ s'.accounts, account.Current s'.blockchain.utxoSet) : Effect s access (.ok answer) s'
  | keeps {answer : Bool} {s' : NodeDataPointers} (other : access ≠ .updateAccountsUtxoSet)
    (same : s'.blockchain.utxoSet = s.blockchain.utxoSet) (alive : s'.accountsPoisoned = s.accountsPoisoned)
    (current : (∀ account ∈ s.accounts, account.Current s.blockchain.utxoSet) →
      ∀ account ∈ s'.accounts, account.Current s.blockchain.utxoSet) : Effect s access (.ok answer) s'
  | changes {answer : Bool} {s' : NodeDataPointers} (changes : access.Changes)
    (alive : s'.accountsPoisoned = s.accountsPoisoned) : Effect s access (.ok answer) s'

variable {order : UtxoSet → List (Hash × UtxoTuple)}

theorem update_accounts_effect (visits : ∀ utxoSet, HashMap.Enumerates utxoSet (order utxoSet))
    (s : NodeDataPointers) : Access.Effect s .updateAccountsUtxoSet
      (Access.act order .updateAccountsUtxoSet s).1 (Access.act order .updateAccountsUtxoSet s).2 := by
  simp only [Access.act, updateAccountsUtxoSet]
  by_cases dead : s.accountsPoisoned
  · simp only [dead, if_true]
    exact .lockedOut dead _
  · simp only [dead]
    rcases visited : setAllUtxos (order s.blockchain.utxoSet) s.accounts with ⟨e | _, accounts⟩
    · exact .panics rfl
    · refine .shows rfl rfl (Bool.eq_false_iff.mpr dead).symm ?_
      have current := set_all_utxos_current (visits s.blockchain.utxoSet) (congrArg Prod.fst visited)
      rw [visited] at current
      exact current

theorem Access.effect (visits : ∀ utxoSet, HashMap.Enumerates utxoSet (order utxoSet)) (access : Access)
    (s : NodeDataPointers) : Access.Effect s access (access.act order s).1 (access.act order s).2 := by
  cases access with
  | updateAccountsUtxoSet => exact update_accounts_effect visits s
  | containsPendingTx tx =>
    simp only [act]
    by_cases dead : s.accountsPoisoned
    · simp only [dead, if_true]
      exact .lockedOut dead _
    · simp only [dead]
      refine .keeps (by simp) rfl (Bool.eq_false_iff.mpr dead).symm fun current account member => ?_
      obtain ⟨account, listed, rfl⟩ := List.mem_map.mp member
      exact Account.confirm_current (current account listed) tx
  | removeUtxo => exact .changes trivial rfl
  | loadUtxos => exact .changes trivial rfl
  | _ => exact .keeps (by simp) rfl rfl fun current => current

theorem Access.act_addresses (access : Access) (s : NodeDataPointers) :
    (access.act order s).2.accounts.map Account.address = s.accounts.map Account.address := by
  cases access with
  | updateAccountsUtxoSet =>
    simp only [act, BitcoinNode.updateAccountsUtxoSet]
    have addresses := set_all_utxos_addresses (order s.blockchain.utxoSet) s.accounts
    split_ifs
    · rfl
    · rcases visited : setAllUtxos (order s.blockchain.utxoSet) s.accounts with ⟨e | _, accounts⟩ <;>
        rw [visited] at addresses <;> exact addresses
  | containsPendingTx tx =>
    simp only [act]
    split_ifs
    · rfl
    · rw [List.map_map]
      exact List.map_congr_left fun account _ => (account.confirm_same tx).1
  | _ => rfl

end Race

/-- What `Wallet::add_account` has still to do. -/
inductive AddAccount where
  | loadData (account : SpendingAccount)
  | push (account : SpendingAccount)
  | done (result : Outcome NodeCustomErrors Unit)

namespace AddAccount

/-- The account that was read and is not in the list yet. -/
def loaded : AddAccount → List Account
  | .push account => [account.toAccount]
  | _ => []

variable [WalletCrates]

def addAccount (wifPrivateKey address : String) : AddAccount :=
  match Outcome.mapErr .UnmarshallingError (SpendingAccount.new wifPrivateKey address) with
  | .ok account => .loadData account
  | .error e => .done (.error e)

theorem add_account_cases (wifPrivateKey address : String) :
    (∃ account, addAccount wifPrivateKey address = .loadData account ∧ account.address = address) ∨
      ∃ e, addAccount wifPrivateKey address = .done (.error e) := by
  rw [addAccount]
  rcases made : SpendingAccount.new wifPrivateKey address with e | account
  · refine .inr ?_
    rcases e with _ | _ | _ <;> exact ⟨_, rfl⟩
  · refine .inl ⟨account, rfl, ?_⟩
    obtain ⟨key, _, made⟩ := Outcome.bind_eq_ok.mp made
    obtain ⟨_, _, same⟩ := Outcome.bind_eq_ok.mp made
    exact congrArg (·.address) (Except.ok.inj same).symm

theorem add_account_loaded (wifPrivateKey address : String) : (addAccount wifPrivateKey address).loaded = [] := by
  rcases add_account_cases wifPrivateKey address with ⟨account, phase, _⟩ | ⟨e, phase⟩ <;> rw [phase] <;> rfl

/-- Reading the outputs takes the lock of the utxo set, pushing the account that of the accounts. -/
def step (order : UtxoSet → List (Hash × UtxoTuple)) (s : NodeDataPointers) :
    AddAccount → AddAccount × NodeDataPointers
  | .loadData account =>
    match (utxosReferencedToAccount (order s.blockchain.utxoSet) account.address).widen with
    | .ok utxosToAccount => (.push { account with toAccount := account.loadUtxos utxosToAccount }, s)
    | .error e => (.done (.error e), s)
  | .push account =>
    if s.accountsPoisoned then (.done (Outcome.fail poisoned), s)
    else (.done (.ok ()), { s with accounts := s.accounts ++ [account.toAccount] })
  | .done result => (.done result, s)

end AddAccount

/-- The wallet, and a handler for each block message. -/
structure WalletRace (ι : Type) where
  wallet : AddAccount
  handlers : ι → PeerThread
  node : NodeDataPointers

inductive Turn (ι : Type) where
  | wallet
  | handler (i : ι)

namespace WalletRace

variable [WalletCrates] [DecidableEq ι]

/-- Each of them visits the utxo set in an order of its own. -/
def step (order : Turn ι → UtxoSet → List (Hash × UtxoTuple)) (r : WalletRace ι) : Turn ι → WalletRace ι
  | .wallet =>
    { r with wallet := (r.wallet.step (order .wallet) r.node).1, node := (r.wallet.step (order .wallet) r.node).2 }
  | .handler i =>
    match r.handlers i with
    | .done _ => r
    | .call access next =>
      { r with
        handlers := Function.update r.handlers i (next (access.act (order (.handler i)) r.node).1)
        node := (access.act (order (.handler i)) r.node).2 }

/-- All calls have returned. -/
structure Finished (r : WalletRace ι) : Prop where
  wallet : ∃ result, r.wallet = .done result ∧ result.Returned
  handlers : ∀ i, ∃ result, r.handlers i = .done result ∧ result.Returned

/-- A handler that visits the accounts finds the outputs of the new account, if these were read and the
account is not in the list yet, as they were read. -/
def Unchanged (r : WalletRace ι) : Turn ι → Prop
  | .wallet => True
  | .handler i => ∀ next, r.handlers i = .call .updateAccountsUtxoSet next →
    ∀ account ∈ r.wallet.loaded, account.Current r.node.blockchain.utxoSet

/-- The accounts are current, those to come too, or a handler has still to visit them. -/
structure Accounted (r : WalletRace ι) : Prop where
  pays : ∀ i, (r.handlers i).Pays
  dead : r.node.accountsPoisoned = true → ∃ i result, r.handlers i = .done result ∧ ¬result.Returned
  current : (∃ i, (r.handlers i).Owes) ∨
    ∀ account ∈ r.node.accounts ++ r.wallet.loaded, account.Current r.node.blockchain.utxoSet

variable {order : Turn ι → UtxoSet → List (Hash × UtxoTuple)} {r : WalletRace ι}

theorem Accounted.handler (visits : ∀ turn utxoSet, HashMap.Enumerates utxoSet (order turn utxoSet))
    (accounted : r.Accounted) {i : ι} (unchanged : r.Unchanged (.handler i)) :
    (r.step order (.handler i)).Accounted := by
  rcases asks : r.handlers i with result | ⟨access, next⟩
  · rwa [step, asks]
  have pays := accounted.pays i
  rw [asks] at pays
  obtain ⟨shown, ends, later⟩ := pays
  have effect := access.effect (visits (.handler i)) r.node
  rw [step, asks]
  simp only
  generalize (access.act (order (.handler i)) r.node).1 = answer at effect ⊢
  generalize (access.act (order (.handler i)) r.node).2 = node at effect ⊢
  have others {j : ι} (other : j ≠ i) : Function.update r.handlers i (next answer) j = r.handlers j :=
    Function.update_of_ne other _ _
  have own : Function.update r.handlers i (next answer) i = next answer := Function.update_self ..
  -- a handler that has panicked is not the one that makes this step
  have crashed (dead : r.node.accountsPoisoned = true) : ∃ j result,
      Function.update r.handlers i (next answer) j = .done result ∧ ¬result.Returned := by
    obtain ⟨j, result, ended, panicked⟩ := accounted.dead dead
    refine ⟨j, result, ?_, panicked⟩
    rw [others, ended]
    rintro rfl
    cases asks.symm.trans ended
  have pays' (j : ι) : (Function.update r.handlers i (next answer) j).Pays := by
    by_cases same : j = i
    · rw [same, own]
      exact later answer
    · rw [others same]
      exact accounted.pays j
  cases effect with
  | lockedOut dead err =>
    obtain ⟨j, result, ended, panicked⟩ := crashed dead
    refine ⟨pays', fun _ => ⟨j, result, ended, panicked⟩, .inl ⟨j, ?_⟩⟩
    simp only [ended]
    exact panicked
  | panics dead =>
    have ended := own.trans (ends _)
    refine ⟨pays', fun _ => ⟨i, _, ended, Outcome.widen_not_returned⟩, .inl ⟨i, ?_⟩⟩
    simp only [ended]
    exact Outcome.widen_not_returned
  | shows visit same alive current =>
    refine ⟨pays', fun dead => crashed (alive ▸ dead), .inr fun account member => ?_⟩
    rcases List.mem_append.mp member with listed | loaded
    · exact current account listed
    · rw [same]
      exact unchanged next (visit ▸ asks) account loaded
  | keeps other same alive current =>
    refine ⟨pays', fun dead => crashed (alive ▸ dead), ?_⟩
    rcases accounted.current with ⟨j, owes⟩ | all
    · refine .inl ⟨j, ?_⟩
      by_cases here : j = i
      · subst here
        rw [asks] at owes
        simp only [own]
        exact (owes.resolve_left other) _
      · simp only [others here]
        exact owes
    · refine .inr fun account member => ?_
      rw [same]
      rcases List.mem_append.mp member with listed | loaded
      · exact current (fun account listed => all account (List.mem_append_left _ listed)) account listed
      · exact all account (List.mem_append_right _ loaded)
  | changes changes alive =>
    refine ⟨pays', fun dead => crashed (alive ▸ dead), .inl ⟨i, ?_⟩⟩
    simp only [own]
    exact shown changes _

theorem Accounted.wallet (visits : ∀ turn utxoSet, HashMap.Enumerates utxoSet (order turn utxoSet))
    (accounted : r.Accounted) : (r.step order .wallet).Accounted := by
  obtain ⟨pays, dead, current⟩ := accounted
  rcases phase : r.wallet with account | account | result <;> rw [phase] at current <;>
    simp only [step, phase, AddAccount.step]
  · rcases read : utxosReferencedToAccount (order .wallet r.node.blockchain.utxoSet) account.address with e | utxos
    · exact ⟨pays, dead, current⟩
    · refine ⟨pays, dead, current.imp_right fun all account' member => ?_⟩
      rcases List.mem_append.mp member with listed | loaded
      · exact all account' (List.mem_append_left _ listed)
      · obtain rfl := List.mem_singleton.mp loaded
        exact .of_read (visits .wallet _) read
  · by_cases poisoned : r.node.accountsPoisoned
    · rw [if_pos poisoned]
      exact ⟨pays, dead, .inl ((dead poisoned).imp fun i ⟨result, ended, panicked⟩ => by
        simp only [ended]
        exact panicked)⟩
    · rw [if_neg poisoned]
      exact ⟨pays, dead, by simpa [AddAccount.loaded] using current⟩
  · exact ⟨pays, dead, current⟩

theorem Accounted.run (visits : ∀ turn utxoSet, HashMap.Enumerates utxoSet (order turn utxoSet))
    (accounted : r.Accounted) {schedule : List (Turn ι)}
    (unchanged : EachCall (step order) Unchanged r schedule) : (execute (step order) r schedule).Accounted := by
  induction schedule generalizing r with
  | nil => exact accounted
  | cons turn schedule ih =>
    obtain ⟨here, later⟩ := eachCall_cons.mp unchanged
    cases turn with
    | wallet => exact ih (accounted.wallet visits) later
    | handler i => exact ih (accounted.handler visits here) later

omit [DecidableEq ι] in
theorem Accounted.finished (accounted : r.Accounted) (finished : r.Finished) :
    ∀ account ∈ r.node.accounts, account.Current r.node.blockchain.utxoSet := by
  intro account listed
  rcases accounted.current with ⟨i, owes⟩ | all
  · obtain ⟨result, ended, returned⟩ := finished.handlers i
    rw [ended] at owes
    exact absurd returned owes
  · exact all account (List.mem_append_left _ listed)

/-- An account with this address is on its way, or it is in the list if the call has succeeded. -/
def Adds (address : String) (r : WalletRace ι) : Prop :=
  match r.wallet with
  | .loadData account => account.address = address
  | .push account => account.address = address
  | .done result => result = .ok () → address ∈ r.node.accounts.map Account.address

theorem Adds.step (order : Turn ι → UtxoSet → List (Hash × UtxoTuple)) {address : String} (adds : r.Adds address)
    (turn : Turn ι) : (r.step order turn).Adds address := by
  cases turn with
  | wallet =>
    rw [Adds] at adds
    rcases phase : r.wallet with account | account | result <;> simp only [phase] at adds
    · simp only [Adds, WalletRace.step, phase, AddAccount.step]
      rcases utxosReferencedToAccount (order .wallet r.node.blockchain.utxoSet) account.address with e | utxos
      · exact nofun
      · exact adds
    · simp only [Adds, WalletRace.step, phase, AddAccount.step]
      by_cases poisoned : r.node.accountsPoisoned
      · rw [if_pos poisoned]
        exact nofun
      · rw [if_neg poisoned]
        simp [adds]
    · simpa only [Adds, WalletRace.step, phase, AddAccount.step] using adds
  | handler i =>
    rw [WalletRace.step]
    rcases r.handlers i with result | ⟨access, next⟩
    · exact adds
    · simpa only [Adds, access.act_addresses] using adds

end WalletRace

def addingAccount [WalletCrates] (wifPrivateKey address : String) (payloads : ι → List UInt8)
    (s : NodeDataPointers) : WalletRace ι :=
  ⟨.addAccount wifPrivateKey address, fun i => .handleBlockMessage (payloads i), s⟩

/-- From current accounts, all accounts are current when all calls have returned, unless a handler that
visited them between the two steps of the wallet had found other outputs of the new account. -/
theorem accounts_current_run [WalletCrates] [DecidableEq ι]
    {order : Turn ι → UtxoSet → List (Hash × UtxoTuple)}
    (visits : ∀ turn utxoSet, HashMap.Enumerates utxoSet (order turn utxoSet)) {s : NodeDataPointers}
    (alive : s.accountsPoisoned = false) (start : ∀ account ∈ s.accounts, account.Current s.blockchain.utxoSet)
    {wifPrivateKey address : String} {payloads : ι → List UInt8} {schedule : List (Turn ι)}
    (unchanged : EachCall (WalletRace.step order) WalletRace.Unchanged
      (addingAccount wifPrivateKey address payloads s) schedule)
    (finished : (execute (WalletRace.step order) (addingAccount wifPrivateKey address payloads s)
      schedule).Finished) :
    let ended := execute (WalletRace.step order) (addingAccount wifPrivateKey address payloads s) schedule
    (∀ account ∈ ended.node.accounts, account.Current ended.node.blockchain.utxoSet) ∧
      (ended.wallet = .done (.ok ()) → address ∈ ended.node.accounts.map Account.address) := by
  intro ended
  have accounted : (addingAccount wifPrivateKey address payloads s).Accounted := by
    refine ⟨fun i => PeerThread.pays_handle_block_message (payloads i), fun dead => ?_, .inr fun account member => ?_⟩
    · cases alive.symm.trans dead
    · rw [addingAccount, AddAccount.add_account_loaded, List.append_nil] at member
      exact start account member
  have adds : (addingAccount wifPrivateKey address payloads s).Adds address := by
    rcases AddAccount.add_account_cases wifPrivateKey address with ⟨account, phase, same⟩ | ⟨e, phase⟩ <;>
      rw [WalletRace.Adds, addingAccount, phase]
    · exact same
    · exact nofun
  refine ⟨(accounted.run visits unchanged).finished finished, fun succeeded => ?_⟩
  have added := Throughout.of_step (P := WalletRace.Adds address) (fun _ turn adds => adds.step order turn) adds
    schedule schedule List.prefix_rfl
  rw [WalletRace.Adds, succeeded] at added
  exact added rfl

section Alone

variable [WalletCrates] [DecidableEq ι] {order : Turn ι → UtxoSet → List (Hash × UtxoTuple)}

theorem WalletRace.execute_alone {t : PeerThread} {r : WalletRace ι} {i : ι} (here : r.handlers i = t) :
    execute (step order) r (List.replicate (t.steps (Access.act (order (.handler i))) r.node) (.handler i)) =
      { r with
        handlers := Function.update r.handlers i (.done (t.run (Access.act (order (.handler i))) r.node).1)
        node := (t.run (Access.act (order (.handler i))) r.node).2 } := by
  induction t generalizing r with
  | done result => rw [Thread.steps, Thread.run, ← here, Function.update_eq_self]; rfl
  | call access next ih =>
    rw [Thread.steps, List.replicate_succ, execute_cons, step, here]
    simp only
    rw [ih _ (Function.update_self ..), Function.update_idem, Thread.run]

/-- The one handler runs between the two steps of the wallet, which had found no outputs. -/
theorem WalletRace.execute_between {payload : List UInt8} {s s' : NodeDataPointers}
    {result : Outcome NodeCustomErrors Unit} {wifPrivateKey address : String} {account : SpendingAccount}
    (handled : (handleBlockMessage payload HashMap.visit).run s = (result, s'))
    (alive : s'.accountsPoisoned = false) (empty : s.blockchain.utxoSet = ∅)
    (added : AddAccount.addAccount wifPrivateKey address = .loadData account) (none : account.utxoSet = []) :
    ∃ schedule, execute (step fun _ : Turn Unit => HashMap.visit)
        (addingAccount wifPrivateKey address (fun _ => payload) s) schedule =
      ⟨.done (.ok ()), fun _ => .done result, { s' with accounts := s'.accounts ++ [account.toAccount] }⟩ := by
  rw [← PeerThread.run_handle_block_message] at handled
  rw [addingAccount, added]
  generalize PeerThread.handleBlockMessage payload = t at handled
  have nothing : HashMap.visit s.blockchain.utxoSet = [] := by
    rw [empty]
    exact (HashMap.enumerates_visit _).nil
  have read : step (fun _ : Turn Unit => HashMap.visit) ⟨.loadData account, fun _ => t, s⟩ .wallet =
      ⟨.push account, fun _ => t, s⟩ := by
    obtain ⟨⟨address, utxoSet, pending, confirmed⟩, privateKey⟩ := account
    obtain rfl : utxoSet = [] := none
    simp only [step, AddAccount.step, nothing]
    rfl
  have alone := @execute_alone Unit _ _ (fun _ => HashMap.visit) t ⟨.push account, fun _ => t, s⟩ () rfl
  refine ⟨.wallet :: (List.replicate (t.steps (Access.act HashMap.visit) s) (.handler ()) ++ [.wallet]), ?_⟩
  rw [execute_cons, read, execute_append, alone, execute_cons, execute_nil, step]
  simp only [handled, AddAccount.step, alive, Bool.false_eq_true, if_false]
  congr 1

end Alone

section Between

variable [WalletCrates] {order : Turn Unit → UtxoSet → List (Hash × UtxoTuple)} {wallet : AddAccount} {b : Block}
  {s s' : NodeDataPointers}

/-- What is left of a block when its outputs are in the set. -/
def PeerThread.showing (b : Block) : PeerThread :=
  .perform .updateAccountsUtxoSet fun _ => .containsPendingTx b.txn <|
    .perform (.includeNewBlock b) fun _ => .done (.ok ())

theorem WalletRace.step_perform {access : Access} {next : Bool → PeerThread} {answer : Bool}
    (acts : access.act (order (.handler ())) s = (.ok answer, s')) :
    step order ⟨wallet, fun _ => .perform access next, s⟩ (.handler ()) = ⟨wallet, fun _ => next answer, s'⟩ := by
  simp only [step, PeerThread.perform, acts]
  rfl

/-- The block of one transaction brings its outputs in four steps. -/
theorem WalletRace.execute_load {tx : Transaction} (one : b.txn = [tx])
    (coinbase : tx.isCoinbaseTransaction = .ok true) (new : b.blockHeader ∉ last10Headers s.blockchain.headers) :
    ∃ s' : NodeDataPointers, s'.accounts = s.accounts ∧ s'.accountsPoisoned = s.accountsPoisoned ∧
      s'.blockchain.utxoSet = tx.loadUtxos s.blockchain.utxoSet ∧
      execute (step order) ⟨wallet, fun _ => PeerThread.handleBlock b, s⟩ (List.replicate 4 (.handler ())) =
        ⟨wallet, fun _ => PeerThread.showing b, s'⟩ := by
  have check : (Access.headerIsNotIncluded b.blockHeader).act (order (.handler ())) s = (.ok true, s) := by
    simp [Access.act, Access.onChain, header_is_not_included_iff.mpr new]
  have settles : PeerThread.settleNewBlock b = .perform (.loadUtxos tx) fun _ => .showing b := by
    rw [PeerThread.settleNewBlock, one, PeerThread.giveMeUtxos, coinbase, PeerThread.showing, one]
    rfl
  let after (s : NodeDataPointers) (access : Access) := s.onBlockchain fun chain => (access.onChain chain).2
  let stored := after (after s (.pushHeader b.blockHeader)) (.insertHeight b.blockHeader)
  refine ⟨after stored (.loadUtxos tx), rfl, rfl, rfl, ?_⟩
  rw [List.replicate_succ, execute_cons, PeerThread.handleBlock, step_perform check, if_pos rfl,
    List.replicate_succ, execute_cons, PeerThread.applyNewBlock, step_perform rfl,
    List.replicate_succ, execute_cons, step_perform rfl, settles, List.replicate_one, execute_cons, step_perform rfl]
  rfl

/-- With no accounts to visit, three more steps end it. -/
theorem WalletRace.execute_show {tx : Transaction} (one : b.txn = [tx]) (alive : s.accountsPoisoned = false)
    (none : s.accounts = []) (current : ∀ account ∈ wallet.loaded, account.Current s.blockchain.utxoSet) :
    ∃ s' : NodeDataPointers, s'.accountsPoisoned = false ∧
      execute (step order) ⟨wallet, fun _ => PeerThread.showing b, s⟩ (List.replicate 3 (.handler ())) =
        ⟨wallet, fun _ => .done (.ok ()), s'⟩ ∧
      EachCall (step order) Unchanged ⟨wallet, fun _ => PeerThread.showing b, s⟩ (List.replicate 3 (.handler ())) := by
  obtain ⟨chain, accounts, dead⟩ := s
  obtain rfl : accounts = [] := none
  obtain rfl : dead = false := alive
  have visits : Access.updateAccountsUtxoSet.act (order (.handler ())) ⟨chain, [], false⟩ =
      (.ok true, ⟨chain, [], false⟩) := rfl
  have visit : step order ⟨wallet, fun _ => PeerThread.showing b, ⟨chain, [], false⟩⟩ (.handler ()) =
      ⟨wallet, fun _ => .perform (.containsPendingTx tx) fun _ => .perform (.includeNewBlock b) fun _ =>
        .done (.ok ()), ⟨chain, [], false⟩⟩ := by
    rw [PeerThread.showing, step_perform visits, one]
    rfl
  refine ⟨⟨includeNewBlock b chain, [], false⟩, rfl, ?_, ?_⟩
  · rw [List.replicate_succ, execute_cons, visit, List.replicate_succ, execute_cons, step_perform rfl,
      List.replicate_one, execute_cons]
    rfl
  · refine eachCall_cons.mpr ⟨fun _ _ => current, ?_⟩
    rw [visit]
    refine eachCall_cons.mpr ⟨nofun, ?_⟩
    rw [step_perform rfl]
    exact eachCall_cons.mpr ⟨nofun, eachCall_nil⟩

theorem WalletRace.unchanged_unread {r : WalletRace Unit} (unread : r.wallet.loaded = []) (n : Nat) :
    EachCall (step order) Unchanged r (List.replicate n (.handler ())) := by
  induction n generalizing r with
  | zero => exact eachCall_nil
  | succ n ih =>
    refine eachCall_cons.mpr ⟨fun next asks account member => ?_, ih ?_⟩
    · rw [unread] at member
      cases member
    · rw [step]
      split <;> exact unread

/-- The wallet reads after the outputs are in the set, and the handler visits the accounts before the account is
pushed. -/
theorem WalletRace.read_between {payload : List UInt8} {wifPrivateKey address : String} {account : SpendingAccount}
    {tx : Transaction} (visits : ∀ turn utxoSet, HashMap.Enumerates utxoSet (order turn utxoSet))
    (new : NewBlock s.blockchain.headers payload b) (one : b.txn = [tx])
    (coinbase : tx.isCoinbaseTransaction = .ok true) (alive : s.accountsPoisoned = false) (none : s.accounts = [])
    (readable : (tx.loadUtxos s.blockchain.utxoSet).Readable)
    (added : AddAccount.addAccount wifPrivateKey address = .loadData account) :
    let schedule := List.replicate 4 (.handler ()) ++ .wallet :: (List.replicate 3 (.handler ()) ++ [.wallet])
    EachCall (step order) Unchanged (addingAccount wifPrivateKey address (fun _ => payload) s) schedule ∧
      (execute (step order) (addingAccount wifPrivateKey address (fun _ => payload) s) schedule).Finished ∧
      (execute (step order) (addingAccount wifPrivateKey address (fun _ => payload) s) schedule).wallet =
        .done (.ok ()) := by
  intro schedule
  have start : addingAccount wifPrivateKey address (fun _ => payload) s =
      ⟨.loadData account, fun _ : Unit => PeerThread.handleBlock b, s⟩ := by
    rw [addingAccount, added]
    exact congrArg (WalletRace.mk _ · s) (funext fun _ => PeerThread.handle_block_message_accepted new.1)
  obtain ⟨s₁, accounts, alive₁, outputs, loaded⟩ :=
    @execute_load _ order (.loadData account) _ _ _ one coinbase new.2
  obtain ⟨utxos, read⟩ : ∃ utxos, utxosReferencedToAccount (order .wallet s₁.blockchain.utxoSet) account.address =
      .ok utxos := ⟨_, (utxos_referenced_to_account_eq_ok (visits _ _)).mpr ⟨outputs ▸ readable, rfl⟩⟩
  let holding : SpendingAccount := { account with toAccount := account.loadUtxos utxos }
  have reads : step order ⟨.loadData account, fun _ => PeerThread.showing b, s₁⟩ .wallet =
      ⟨.push holding, fun _ => PeerThread.showing b, s₁⟩ := by
    simp only [step, AddAccount.step, read, Outcome.widen_ok]
    rfl
  have holds : ∀ account ∈ (AddAccount.push holding).loaded, account.Current s₁.blockchain.utxoSet :=
    List.forall_mem_singleton.mpr (.of_read (visits .wallet _) read)
  obtain ⟨s₂, alive₂, shown, unchanged⟩ :=
    @execute_show _ order _ _ _ _ one (alive₁.trans alive) (accounts.trans none) holds
  let final : WalletRace Unit :=
    ⟨.done (.ok ()), fun _ => .done (.ok ()), ⟨s₂.blockchain, s₂.accounts ++ [holding.toAccount], false⟩⟩
  have pushes : step order ⟨.push holding, fun _ => .done (.ok ()), s₂⟩ .wallet = final := by
    simp only [step, AddAccount.step, alive₂, Bool.false_eq_true, if_false]
    rfl
  have ran : execute (step order) (addingAccount wifPrivateKey address (fun _ => payload) s) schedule = final := by
    rw [start, execute_append, loaded, execute_cons, reads, execute_append, shown, execute_cons, execute_nil, pushes]
  refine ⟨?_, ?_, ?_⟩
  · rw [start, eachCall_append, loaded, eachCall_cons, reads, eachCall_append, shown]
    exact ⟨unchanged_unread rfl 4, trivial, unchanged, eachCall_cons.mpr ⟨trivial, eachCall_nil⟩⟩
  · rw [ran]
    exact ⟨⟨_, rfl, .inl ⟨_, rfl⟩⟩, fun _ => ⟨_, rfl, .inl ⟨_, rfl⟩⟩⟩
  · rw [ran]

end Between

namespace OneKey

def incomeTx : Transaction := .mint 1 [TxOut.new 5 p2pkh]

def income [Crates] : Block := .mined (U8Array.replicate 32 1) incomeTx.hash [incomeTx]

def incomeUtxo [Crates] : UtxoTuple := ⟨incomeTx.hash, [(TxOut.new 5 p2pkh, 0)]⟩

theorem income_new :
    let _ := OneKey.crates
    NewBlock Blockchain.initial.headers income.marshalling income := by
  intro crates
  have valid : incomeTx.WellFormed := by
    refine Transaction.mint_wellFormed 1 (CompactSizeUint.new_counts (by decide)) fun txout member => ?_
    obtain rfl := List.mem_singleton.mp member
    exact CompactSizeUint.new_counts (by decide)
  have work : income.blockHeader.validate = .ok true := by decide +kernel
  have other : income.blockHeader ≠ genesisBlockHeader := by decide +kernel
  exact .first (Block.mined_wellFormed valid) (Block.mined_accepted work (by decide +kernel)) other

theorem income_run :
    let _ := OneKey.crates
    ∃ s', (BitcoinNode.handleBlockMessage income.marshalling HashMap.visit).run ⟨.initial, [], false⟩ = (.ok (), s') ∧
      s'.accounts = [] ∧ s'.accountsPoisoned = false ∧
      s'.blockchain.utxoSet = (∅ : UtxoSet).insert incomeTx.hash incomeUtxo := by
  intro crates
  rw [handle_block_message_new income_new]
  refine ⟨_, Proc.run_eq_of_returns ?_, ?_, ?_, ?_⟩
  · decide +kernel
  · decide +kernel
  · decide +kernel
  · decide +kernel

def emptyAccount : SpendingAccount := ⟨⟨address, [], [], []⟩, (account []).privateKey⟩

theorem add_account_eq :
    let _ := OneKey.crates
    AddAccount.addAccount emptyAccount.privateKey address = .loadData emptyAccount := by
  intro crates
  rw [AddAccount.addAccount, emptyAccount, new_account []]
  rfl

theorem income_readable :
    let _ := OneKey.crates
    UtxoSet.Readable ((∅ : UtxoSet).insert incomeTx.hash incomeUtxo) := by
  intro crates txId t held utxo inside
  by_cases own : txId = incomeTx.hash
  · subst own
    obtain rfl := Option.some.inj ((HashMap.get_insert _ _ _).symm.trans held)
    obtain rfl := List.mem_singleton.mp inside
    have readable : (TxOut.new 5 p2pkh).getAddress ≠ Outcome.panic := by decide +kernel
    exact readable
  · rw [HashMap.get_insert_of_ne _ own, HashMap.get_empty] at held
    cases held

theorem income_missed :
    let _ := OneKey.crates
    ¬emptyAccount.toAccount.Current ((∅ : UtxoSet).insert incomeTx.hash incomeUtxo) := by
  intro crates current
  have visits := HashMap.enumerates_visit ((∅ : UtxoSet).insert incomeTx.hash incomeUtxo)
  obtain ⟨utxos, read, perm⟩ := current _ visits
  obtain ⟨_, same⟩ := (utxos_referenced_to_account_eq_ok visits).mp read
  have listed := (visits.2 incomeTx.hash incomeUtxo).mpr (HashMap.get_insert _ _ _)
  have kept : incomeUtxo.kept address = some incomeUtxo := by decide +kernel
  have member : incomeUtxo ∈ utxos := by
    rw [same]
    exact List.mem_filterMap.mpr ⟨incomeUtxo, List.mem_map_of_mem listed, kept⟩
  rw [List.nil_perm.mp perm] at member
  cases member

end OneKey

/-- The outputs are read, the block comes in, and the account is pushed. -/
theorem accounts_current_missed :
    let _ := OneKey.crates
    let s : NodeDataPointers := ⟨.initial, [], false⟩
    let run := execute (WalletRace.step fun _ : Turn Unit => HashMap.visit)
      (addingAccount OneKey.emptyAccount.privateKey OneKey.address (fun _ => OneKey.income.marshalling) s)
    (∀ account ∈ s.accounts, account.Current s.blockchain.utxoSet) ∧ ∃ schedule, (run schedule).Finished ∧
      ¬∀ account ∈ (run schedule).node.accounts, account.Current (run schedule).node.blockchain.utxoSet := by
  obtain ⟨s', ran, accounts, alive, outputs⟩ := OneKey.income_run
  obtain ⟨schedule, final⟩ := 
    @WalletRace.execute_between OneKey.crates _ _ s' _ _ _ _ ran alive rfl OneKey.add_account_eq rfl
  refine ⟨nofun, schedule, ?_, fun current => ?_⟩
  · rw [final]
    exact ⟨⟨_, rfl, .inl ⟨_, rfl⟩⟩, fun _ => ⟨_, rfl, .inl ⟨_, rfl⟩⟩⟩
  · rw [final] at current
    have missed := current OneKey.emptyAccount.toAccount (List.mem_append_right _ (List.mem_singleton_self _))
    simp only [outputs] at missed
    exact OneKey.income_missed missed

/-- The block comes in, the wallet reads its outputs, and the handler visits the accounts before the account is there. -/
theorem accounts_current_run_between :
    let _ := OneKey.crates
    let s : NodeDataPointers := ⟨.initial, [], false⟩
    let schedule : List (Turn Unit) :=
      List.replicate 4 (.handler ()) ++ .wallet :: (List.replicate 3 (.handler ()) ++ [.wallet])
    let ended := execute (WalletRace.step fun _ : Turn Unit => HashMap.visit)
      (addingAccount OneKey.emptyAccount.privateKey OneKey.address (fun _ => OneKey.income.marshalling) s) schedule
    ended.Finished ∧ (∀ account ∈ ended.node.accounts, account.Current ended.node.blockchain.utxoSet) ∧
      OneKey.address ∈ ended.node.accounts.map Account.address := by
  have coinbase : OneKey.incomeTx.isCoinbaseTransaction = .ok true := by decide +kernel
  obtain ⟨unchanged, finished, succeeded⟩ := @WalletRace.read_between OneKey.crates (fun _ => HashMap.visit) _
    ⟨.initial, [], false⟩ _ _ _ _ _ (fun _ => HashMap.enumerates_visit) OneKey.income_new rfl coinbase rfl rfl
    OneKey.income_readable OneKey.add_account_eq
  obtain ⟨current, added⟩ := @accounts_current_run Unit OneKey.crates _ _ (fun _ => HashMap.enumerates_visit) _ rfl
    (List.forall_mem_nil _) _ _ _ _ unchanged finished
  exact ⟨finished, current, added succeeded⟩

end BitcoinNode
