import BitcoinNode.Lib.DecoderPanics
import BitcoinNode.PeerConflicts
import BitcoinNode.PendingTransactions

/-! Scripts that no address can be made of. One kind of them is not refused but panics, and a
message that makes the node read it takes the thread down, or the lock of the accounts. -/
namespace BitcoinNode

/-- A script of four bytes that starts like a P2PKH script: the hash would end before it begins. -/
def Pubkey.Stub (pubkey : Pubkey) : Prop :=
  pubkey.bytes.length = 4 ∧ pubkey.bytes.head? = some opDup

def UtxoSet.HoldsStub (utxoSet : UtxoSet) : Prop :=
  ∃ txId t, utxoSet.get txId = some t ∧ ∃ utxo ∈ t.utxoSet, utxo.1.pkScript.Stub

section Scripts

variable [Crates]

theorem Pubkey.generate_address_returns_iff (pubkey : Pubkey) :
    pubkey.generateAddress.Returns ↔ ¬pubkey.Stub := by
  unfold generateAddress
  by_cases short : pubkey.bytes.length ≤ 3
  · rw [if_pos short]
    refine iff_of_true (.inr ⟨_, rfl⟩) fun stub => ?_
    rw [stub.1] at short
    omega
  · have first := Outcome.index_of_lt (ε := String) pubkey.bytes 0 (by omega)
    have head : pubkey.bytes.head? = some pubkey.bytes[0] := by
      rw [List.head?_eq_getElem?, List.getElem?_eq_getElem]
    rw [if_neg short, first, Outcome.bind_ok, Stub, head, Option.some.injEq]
    by_cases dup : pubkey.bytes[0] = opDup
    · by_cases four : pubkey.bytes.length = 4
      · have inverted : pubkey.bytes.length - 2 < 3 := by omega
        rw [if_pos dup, if_pos inverted, Outcome.returns_iff]
        exact iff_of_false (fun returns => returns.1 rfl) (not_not_intro ⟨four, dup⟩)
      · have ordered : ¬pubkey.bytes.length - 2 < 3 := by omega
        rw [if_pos dup, if_neg ordered]
        exact iff_of_true (.inl ⟨_, rfl⟩) fun stub => four stub.1
    · rw [if_neg dup]
      exact iff_of_true (.inl ⟨_, rfl⟩) fun stub => dup stub.2

theorem TxOut.readable_iff {out : TxOut} : out.Readable ↔ ¬out.pkScript.Stub := by
  rw [← Pubkey.generate_address_returns_iff, Readable, getAddress, Outcome.returns_iff]
  refine ⟨fun safe => ⟨safe, fun aborts => ?_⟩, And.left⟩
  obtain ⟨text, same⟩ : ∃ text, Failure.abort = .err text := get_address_failure aborts safe
  cases same

theorem UtxoSet.readable_iff {utxoSet : UtxoSet} : utxoSet.Readable ↔ ¬utxoSet.HoldsStub := by
  simp only [Readable, TxOut.readable_iff, HoldsStub, not_exists, not_and]

theorem UtxoSet.HoldsStub.settle {tx : Transaction} (utxoSet : UtxoSet) {out : TxOut} (member : out ∈ tx.txOut)
    (stub : out.pkScript.Stub) : UtxoSet.HoldsStub (tx.settle utxoSet) := by
  obtain ⟨i, found⟩ := List.mem_iff_getElem?.mp member
  exact ⟨tx.hash, _, HashMap.get_insert _ _ _, (out, i), List.mem_zipIdx_iff_getElem?.mpr found, stub⟩

/-- A stub that the outputs of a transaction are loaded on was there before, or is one of them. -/
theorem UtxoSet.HoldsStub.of_load {tx : Transaction} {utxoSet : UtxoSet}
    (holds : UtxoSet.HoldsStub (tx.loadUtxos utxoSet)) :
    (∃ out ∈ tx.txOut, out.pkScript.Stub) ∨ utxoSet.HoldsStub := by
  obtain ⟨txId, t, held, utxo, inside, stub⟩ := holds
  by_cases own : txId = tx.hash
  · subst own
    obtain rfl := Option.some.inj ((HashMap.get_insert _ _ _).symm.trans held)
    exact .inl ⟨utxo.1, List.mem_of_getElem? (List.mem_zipIdx_iff_getElem?.mp inside), stub⟩
  · exact .inr ⟨txId, t, (HashMap.get_insert_of_ne _ own _).symm.trans held, utxo, inside, stub⟩

theorem TxOut.associated_address_cases (out : TxOut) :
    (¬out.pkScript.Stub ∧ ∃ text, out.associatedAddress = .ok text) ∨
      out.pkScript.Stub ∧ out.associatedAddress = Outcome.panic := by
  by_cases stub : out.pkScript.Stub
  · have panics := not_not.mp (mt TxOut.readable_iff.mp (not_not_intro stub))
    refine .inr ⟨stub, ?_⟩
    rw [associatedAddress, panics]
    rfl
  · refine .inl ⟨stub, ?_⟩
    rw [associatedAddress]
    rcases read : out.getAddress with e | address
    · obtain ⟨text, rfl⟩ := (TxOut.readable_iff.mpr stub).failure e read
      exact ⟨text, rfl⟩
    · exact ⟨address, rfl⟩

/-- The loop over the accounts reads the script for every account that does not have the
transaction yet. -/
theorem TxOut.involve_accounts_returns_iff {out : TxOut} {tx : Transaction} {accounts : List Account} :
    (out.involveAccounts tx accounts).1.Returns ↔
      (out.pkScript.Stub → ∀ account ∈ accounts, tx ∈ account.pendingTransactions) := by
  rcases out.associated_address_cases with ⟨sound, text, read⟩ | ⟨stub, panics⟩
  · rw [TxOut.involve_accounts_read read]
    exact iff_of_true (.inl ⟨(), rfl⟩) fun stub => absurd stub sound
  · rw [forall_prop_of_true stub]
    induction accounts with
    | nil => exact iff_of_true (.inl ⟨(), rfl⟩) (by simp)
    | cons account rest ih =>
      rw [involveAccounts, List.forall_mem_cons, panics]
      by_cases pending : tx ∈ account.pendingTransactions
      · rw [if_pos pending, and_iff_right pending]
        exact ih
      · rw [if_neg pending, Outcome.returns_iff]
        exact iff_of_false (fun returns => returns.1 rfl) fun all => pending all.1

theorem TxOut.involves_user_account_returns_iff {out : TxOut} {tx : Transaction} {s : NodeDataPointers} :
    ((out.involvesUserAccount tx).run s).1.Returns ↔ ¬(s.accountsPoisoned = false ∧
      out.pkScript.Stub ∧ ∃ account ∈ s.accounts, tx ∉ account.pendingTransactions) := by
  cases dead : s.accountsPoisoned with
  | true =>
    have refused : ((out.involvesUserAccount tx).run s).1 = Outcome.fail poisoned := by
      simp only [involvesUserAccount, dead, if_true]
    rw [refused]
    exact iff_of_true (.inr ⟨_, rfl⟩) (by simp)
  | false =>
    have here : ((out.involvesUserAccount tx).run s).1 = (out.involveAccounts tx s.accounts).1.widen := by
      simp only [involvesUserAccount, dead, Bool.false_eq_true, if_false]
    rw [here, Outcome.widen_returns_iff, involve_accounts_returns_iff]
    simp

/-- The accounts that an announced transaction is still to be looked up for when its loop comes to
an output: those that do not have it, and that no output before pays. -/
def Transaction.StillSought (tx : Transaction) (before : List TxOut) (accounts : List Account) : Prop :=
  ∃ account ∈ accounts, tx ∉ account.pendingTransactions ∧ involves account.address before = false

theorem Transaction.stillSought_announce {tx : Transaction} {out : TxOut} {text : String}
    (read : out.associatedAddress = .ok text) (before : List TxOut) (accounts : List Account) :
    tx.StillSought before (accounts.map (Account.announce tx [out])) ↔
      tx.StillSought (out :: before) accounts := by
  have each (account : Account) : tx ∉ (account.announce tx [out]).pendingTransactions ∧
      involves (account.announce tx [out]).address before = false ↔
      tx ∉ account.pendingTransactions ∧ involves account.address (out :: before) = false := by
    rw [Account.announce_address]
    by_cases pending : tx ∈ account.pendingTransactions
    · rw [Account.announce_pending pending]
      simp [pending]
    · by_cases pays : text = account.address <;>
        simp [Account.announce, pending, involves, read, pays, Account.addPending]
  simp only [StillSought, List.mem_map, exists_exists_and_eq_and, each]

theorem each_involves_returns_iff {tx : Transaction} {outputs : List TxOut} {s : NodeDataPointers}
    (alive : s.accountsPoisoned = false) :
    ((Proc.each outputs fun txOut => txOut.involvesUserAccount tx).run s).1.Returns ↔
      ¬∃ before out after, outputs = before ++ out :: after ∧
        (∀ earlier ∈ before, ¬earlier.pkScript.Stub) ∧ out.pkScript.Stub ∧
        tx.StillSought before s.accounts := by
  induction outputs generalizing s with
  | nil => exact iff_of_true (.inl ⟨(), rfl⟩) (by simp)
  | cons out rest ih =>
    have here : (out.involvesUserAccount tx).run s = ((out.involveAccounts tx s.accounts).1.widen,
        { s with accounts := (out.involveAccounts tx s.accounts).2 }) := by
      simp only [TxOut.involvesUserAccount, alive, Bool.false_eq_true, if_false]
    rw [exists_split_cons]
    rcases out.associated_address_cases with ⟨sound, text, read⟩ | ⟨stub, panics⟩
    · rw [TxOut.involve_accounts_read read] at here
      have later := ih (s := { s with accounts := s.accounts.map (Account.announce tx [out]) }) alive
      rw [Proc.each, Proc.run_bind_ok _ here]
      refine later.trans (not_congr ?_)
      simp only [tx.stillSought_announce read, List.forall_mem_cons, sound, not_false_eq_true, true_and,
        false_and, and_false, false_or]
    · obtain ⟨same, _⟩ := TxOut.involve_accounts_panic panics tx s.accounts
      rw [same] at here
      have missing : tx.StillSought [] s.accounts ↔ ¬∀ account ∈ s.accounts, tx ∈ account.pendingTransactions := by
        simp [Transaction.StillSought, involves]
      have returns := @TxOut.involve_accounts_returns_iff _ out tx s.accounts
      rw [forall_prop_of_true stub] at returns
      simp only [List.forall_mem_cons, stub, not_true_eq_false, false_and, and_false, exists_false, or_false,
        List.not_mem_nil, IsEmpty.forall_iff, implies_true, true_and, missing, not_not]
      rw [← returns]
      rcases result : (out.involveAccounts tx s.accounts).1 with e | _ <;> rw [result] at here returns
      · rw [Proc.each, Proc.run_bind_error _ here, ← Outcome.widen_returns_iff (ε := NodeCustomErrors)]
        rfl
      · have all := returns.mp (.inl ⟨(), rfl⟩)
        rw [Proc.each, Proc.run_bind_ok _ here, ih alive]
        refine iff_of_true ?_ (.inl ⟨(), rfl⟩)
        rintro ⟨_, _, _, _, _, _, account, member, absent, _⟩
        exact absent (all account member)

/-- Some account is still looked up when the loop comes to an output that panics. -/
def Transaction.StopsAtStub (tx : Transaction) (s : NodeDataPointers) : Prop :=
  s.accountsPoisoned = false ∧ ∃ before out after, tx.txOut = before ++ out :: after ∧
    (∀ earlier ∈ before, ¬earlier.pkScript.Stub) ∧ out.pkScript.Stub ∧ tx.StillSought before s.accounts

theorem handle_tx_message_returns_iff {payload : List UInt8} {tx : Transaction} {stop : Nat}
    (decoded : Transaction.unmarshalling payload 0 = .ok (tx, stop)) (s : NodeDataPointers) :
    ((handleTxMessage payload).run s).1.Returns ↔ ¬tx.StopsAtStub s := by
  have loop : (handleTxMessage payload).run s =
      (Proc.each tx.txOut fun txOut => txOut.involvesUserAccount tx).run s := by
    rw [handleTxMessage, decoded]
    rfl
  rw [loop, Transaction.StopsAtStub]
  cases dead : s.accountsPoisoned with
  | true =>
    refine iff_of_true ?_ (by simp)
    cases tx.txOut with
    | nil => exact .inl ⟨(), rfl⟩
    | cons out rest =>
      have refused : (out.involvesUserAccount tx).run s = (Outcome.fail poisoned, s) := by
        simp only [TxOut.involvesUserAccount, dead, if_true]
      rw [Proc.each, Proc.run_bind_error _ refused]
      exact .inr ⟨_, rfl⟩
  | false => rw [each_involves_returns_iff dead, and_iff_right rfl]

/-- The accounts can be locked, and there is one to set while an output of the set panics. -/
def NodeDataPointers.VisitsStub (s : NodeDataPointers) (utxoSet : UtxoSet) : Prop :=
  s.accountsPoisoned = false ∧ s.accounts ≠ [] ∧ utxoSet.HoldsStub

/-- The lock is refused, poisoned by a panic, or given back. -/
theorem update_accounts_utxo_set_cases {order : UtxoSet → List (Hash × UtxoTuple)}
    (visits : ∀ utxoSet, HashMap.Enumerates utxoSet (order utxoSet)) (s : NodeDataPointers) :
    s.accountsPoisoned = true ∧ (updateAccountsUtxoSet order).run s = (Outcome.fail poisoned, s) ∨
    s.VisitsStub s.blockchain.utxoSet ∧ (∃ accounts, (updateAccountsUtxoSet order).run s =
      (Outcome.panic, { s with accounts, accountsPoisoned := true })) ∨
    s.accountsPoisoned = false ∧ ¬s.VisitsStub s.blockchain.utxoSet ∧
      ∃ accounts, (updateAccountsUtxoSet order).run s = (.ok (), { s with accounts }) := by
  have visit := visits s.blockchain.utxoSet
  rw [updateAccountsUtxoSet]
  cases dead : s.accountsPoisoned with
  | true => exact .inl ⟨rfl, if_pos dead⟩
  | false =>
    right
    dsimp only
    rw [if_neg (by simp [dead])]
    have result : (s.VisitsStub s.blockchain.utxoSet ∧
          (setAllUtxos (order s.blockchain.utxoSet) s.accounts).1 = Outcome.panic) ∨
        ¬s.VisitsStub s.blockchain.utxoSet ∧
          (setAllUtxos (order s.blockchain.utxoSet) s.accounts).1 = .ok () := by
      by_cases readable : s.blockchain.utxoSet.Readable
      · exact .inr ⟨fun stub => UtxoSet.readable_iff.mp readable stub.2.2,
          set_all_utxos_readable visit readable s.accounts⟩
      by_cases none : s.accounts = []
      · exact .inr ⟨fun stub => stub.2.1 none, by rw [none]; rfl⟩
      · exact .inl ⟨⟨dead, none, not_not.mp (mt UtxoSet.readable_iff.mpr readable)⟩,
          set_all_utxos_panic visit readable none⟩
    rcases set : setAllUtxos (order s.blockchain.utxoSet) s.accounts with ⟨outcome, accounts⟩
    rw [set] at result
    rcases result with ⟨stub, rfl⟩ | ⟨sound, rfl⟩
    · exact .inl ⟨stub, accounts, rfl⟩
    · exact .inr ⟨rfl, sound, accounts, by rw [dead]⟩

theorem handle_block_message_returns_iff {order : UtxoSet → List (Hash × UtxoTuple)}
    (visits : ∀ utxoSet, HashMap.Enumerates utxoSet (order utxoSet)) {payload : List UInt8} {b : Block}
    {s : NodeDataPointers} (new : NewBlock s.blockchain.headers payload b) :
    let visited := b.txn.foldl (fun utxoSet tx => tx.settle utxoSet) s.blockchain.utxoSet
    (((handleBlockMessage payload order).run s).1.Returns ↔ ¬s.VisitsStub visited) ∧
      (((handleBlockMessage payload order).run s).2.accountsPoisoned = true ↔
        s.accountsPoisoned = true ∨ s.VisitsStub visited) := by
  intro visited
  have inputs : ∀ tx ∈ b.txn, tx.txIn ≠ [] := fun tx member =>
    ((BlockMessage.unmarshalling_wellFormed new.1.1).transactions tx member).nonempty
  have settled := Block.give_me_utxos_eq inputs
    (s.onBlockchain (includeNewHeader b.blockHeader)).blockchain.utxoSet
  let after : NodeDataPointers := (s.onBlockchain (includeNewHeader b.blockHeader)).onBlockchain
    ({ · with utxoSet := visited })
  have loaded : (Proc.zoom (·.blockchain.utxoSet) (fun utxoSet s => s.onBlockchain ({ · with utxoSet }))
      b.giveMeUtxos.widen : Handler Unit).run (s.onBlockchain (includeNewHeader b.blockHeader)) =
        (.ok (), after) := by
    rw [Proc.run_zoom, Proc.run_widen, settled]
    rfl
  rw [handle_block_message_new new, applyNewBlock, Proc.run_bind_ok _ (Proc.run_modify ..),
    Proc.run_bind_ok _ loaded]
  rcases update_accounts_utxo_set_cases visits after with ⟨dead, ran⟩ | ⟨stub, _, ran⟩ | ⟨alive, sound, accounts, ran⟩
  · rw [Proc.run_bind_error _ ran]
    exact ⟨iff_of_true (.inr ⟨_, rfl⟩) fun stub => Bool.noConfusion (dead.symm.trans stub.1),
      iff_of_true dead (.inl dead)⟩
  · rw [Proc.run_bind_error _ ran, Outcome.returns_iff]
    exact ⟨iff_of_false (fun returns => returns.1 rfl) (not_not_intro stub), iff_of_true rfl (.inr stub)⟩
  · have confirmed := @Block.run_contains_pending_tx _ b { after with accounts } alive
    rw [Proc.run_bind_ok _ ran, Proc.run_bind_ok _ confirmed]
    refine ⟨iff_of_true (.inl ⟨(), rfl⟩) sound, iff_of_false ?_ ?_⟩
    · exact fun dead => Bool.noConfusion (alive.symm.trans dead)
    · rintro (dead | stub)
      · exact Bool.noConfusion (alive.symm.trans dead)
      · exact sound stub

/-- Addresses are made, or refused, of all scripts but the stubs. The handlers come to a stub in an
announced transaction while some account is still sought, and in a block, or anywhere in the set of
unspent outputs, while there is an account: then they panic, and a block poisons the accounts. -/
theorem scripts_return_iff :
    (∀ pubkey : Pubkey, pubkey.generateAddress.Returns ↔ ¬pubkey.Stub) ∧
    (∀ (out : TxOut) (tx : Transaction) (s : NodeDataPointers),
      ((out.involvesUserAccount tx).run s).1.Returns ↔ ¬(s.accountsPoisoned = false ∧
        out.pkScript.Stub ∧ ∃ account ∈ s.accounts, tx ∉ account.pendingTransactions)) ∧
    (∀ (payload : List UInt8) (tx : Transaction) (stop : Nat) (s : NodeDataPointers),
      Transaction.unmarshalling payload 0 = .ok (tx, stop) →
        (((handleTxMessage payload).run s).1.Returns ↔ ¬tx.StopsAtStub s)) ∧
    ∀ order : UtxoSet → List (Hash × UtxoTuple),
      (∀ utxoSet, HashMap.Enumerates utxoSet (order utxoSet)) →
      (∀ (account : Account) (utxoSet : UtxoSet),
        (account.setUtxos (order utxoSet)).Returns ↔ ¬utxoSet.HoldsStub) ∧
      ∀ (payload : List UInt8) (b : Block) (s : NodeDataPointers),
        NewBlock s.blockchain.headers payload b →
        let visited := b.txn.foldl (fun utxoSet tx => tx.settle utxoSet) s.blockchain.utxoSet
        (((handleBlockMessage payload order).run s).1.Returns ↔ ¬s.VisitsStub visited) ∧
          (((handleBlockMessage payload order).run s).2.accountsPoisoned = true ↔
            s.accountsPoisoned = true ∨ s.VisitsStub visited) := by
  refine ⟨Pubkey.generate_address_returns_iff, fun _ _ _ => TxOut.involves_user_account_returns_iff,
    fun _ _ _ s decoded => handle_tx_message_returns_iff decoded s, fun order visits =>
    ⟨fun account utxoSet => ?_, fun _ _ _ new => handle_block_message_returns_iff visits new⟩⟩
  obtain ⟨returns, panics⟩ := account.set_utxos_fails (visits utxoSet)
  by_cases readable : utxoSet.Readable
  · exact iff_of_true (.inl (returns readable)) (UtxoSet.readable_iff.mp readable)
  · rw [panics readable, Outcome.returns_iff, ← UtxoSet.readable_iff]
    exact iff_of_false (fun returns => returns.1 rfl) readable

end Scripts

section LockedBy

variable {script : Pubkey}

/-- Five satoshis under a script. -/
def Transaction.lockedBy (script : Pubkey) : Transaction := .mint 1 [⟨5, .new script.bytes.length, script⟩]

def Block.lockedBy [Crates] (script : Pubkey) : Block :=
  .mined (U8Array.replicate 32 1) (Transaction.lockedBy script).hash [.lockedBy script]

theorem Transaction.lockedBy_wellFormed (short : script.bytes.length < 2 ^ 64) : (lockedBy script).WellFormed := by
  refine Transaction.mint_wellFormed 1 ⟨⟨1, [], rfl, rfl⟩, rfl⟩ fun txout member => ?_
  obtain rfl := List.mem_singleton.mp member
  exact CompactSizeUint.new_counts short

theorem Transaction.lockedBy_decoded (short : script.bytes.length < 2 ^ 64) :
    unmarshalling (lockedBy script).marshalling 0 = .ok (lockedBy script, (lockedBy script).marshalling.length) := by
  have read := Transaction.unmarshalling_reads (lockedBy_wellFormed short) [] []
  simpa using read

theorem Block.lockedBy_new [Crates] (short : script.bytes.length < 2 ^ 64)
    (size : (Transaction.lockedBy script).marshalling.length ≤ 1000)
    (work : (Block.lockedBy script).blockHeader.validate = .ok true)
    (other : (Block.lockedBy script).blockHeader ≠ genesisBlockHeader) :
    NewBlock Blockchain.initial.headers (Block.lockedBy script).marshalling (.lockedBy script) :=
  .first (Block.mined_wellFormed (Transaction.lockedBy_wellFormed short)) (Block.mined_accepted work size) other

end LockedBy

def Pubkey.stub : Pubkey := ⟨[0x76, 1, 2, 3]⟩

def Transaction.stub : Transaction := .lockedBy .stub

def Block.stub [Crates] : Block := .lockedBy .stub

/-- A node with one account, to which such a script is announced, and to which it comes in a block. -/
theorem scripts_panic :
    let _ := Crates.standard
    let s : NodeDataPointers := ⟨.initial, [⟨"mine", [], [], []⟩], false⟩
    ¬Pubkey.stub.generateAddress.Returns ∧
      ((handleTxMessage Transaction.stub.marshalling).run s).1 = Outcome.panic ∧
      ¬((handleBlockMessage Block.stub.marshalling HashMap.visit).run s).1.Returns ∧
      ((handleBlockMessage Block.stub.marshalling HashMap.visit).run s).2.accountsPoisoned = true := by
  intro _ s
  have visits : s.VisitsStub (Transaction.stub.settle s.blockchain.utxoSet) :=
    ⟨rfl, by simp [s], .settle _ (List.mem_singleton_self _) ⟨rfl, rfl⟩⟩
  have new : NewBlock s.blockchain.headers Block.stub.marshalling Block.stub :=
    Block.lockedBy_new (by decide) (by decide) (by decide +kernel) (by decide +kernel)
  have mined := handle_block_message_returns_iff HashMap.enumerates_visit (s := s) new
  refine ⟨fun returns => (Pubkey.generate_address_returns_iff _).mp returns ⟨rfl, rfl⟩, ?_,
    mined.1.not.mpr (not_not_intro visits), mined.2.mpr (.inr visits)⟩
  rw [handleTxMessage, Transaction.stub, Transaction.lockedBy_decoded (by decide)]
  rfl

def Pubkey.p2pkh : Pubkey := ⟨[0x76, 0xa9, 20] ++ List.replicate 20 7 ++ [0x88, 0xac]⟩

/-- A node with one account, which reads a script that pays to a key hash wherever it comes. -/
theorem scripts_return_p2pkh :
    let _ := Crates.standard
    let account : Account := ⟨"mine", [], [], []⟩
    let s : NodeDataPointers := ⟨.initial, [account], false⟩
    let tx := Transaction.lockedBy .p2pkh
    Pubkey.p2pkh.generateAddress.Returns ∧ ((handleTxMessage tx.marshalling).run s).1.Returns ∧
      (∀ out ∈ tx.txOut, ((out.involvesUserAccount tx).run s).1.Returns) ∧
      (account.setUtxos (HashMap.visit (tx.loadUtxos ∅))).Returns ∧
      ((handleBlockMessage (Block.lockedBy .p2pkh).marshalling HashMap.visit).run s).1.Returns ∧
      ¬((handleBlockMessage (Block.lockedBy .p2pkh).marshalling HashMap.visit).run s).2.accountsPoisoned := by
  intro _ account s tx
  obtain ⟨read, involved, announced, visited⟩ := scripts_return_iff
  have readable : ¬Pubkey.p2pkh.Stub := fun stub => absurd stub.1 (by decide)
  have outputs : ∀ out ∈ tx.txOut, ¬out.pkScript.Stub := fun out member => by
    rwa [List.mem_singleton.mp member]
  have short : Pubkey.p2pkh.bytes.length < 2 ^ 64 := by decide
  have settled : ¬UtxoSet.HoldsStub (tx.loadUtxos ∅) := fun holds => by
    rcases holds.of_load with ⟨out, member, stub⟩ | ⟨txId, t, held, _⟩
    · exact outputs out member stub
    · rw [HashMap.get_empty] at held
      cases held
  obtain ⟨returns, poisons⟩ := (visited _ HashMap.enumerates_visit).2 _ _ s
    (Block.lockedBy_new short (by decide) (by decide +kernel) (by decide +kernel))
  have coinbase : tx.Coinbase := by decide +kernel
  have loaded : (Block.lockedBy .p2pkh).txn.foldl (fun utxoSet tx => tx.settle utxoSet) s.blockchain.utxoSet =
      tx.loadUtxos ∅ := congrArg tx.loadUtxos (if_pos coinbase)
  rw [loaded] at returns poisons
  refine ⟨(read _).mpr readable, (announced _ _ _ s (Transaction.lockedBy_decoded short)).mpr ?_,
    fun out member => (involved _ _ _).mpr fun stops => outputs out member stops.2.1,
    ((visited _ HashMap.enumerates_visit).1 _ _).mpr settled, returns.mpr fun visits => settled visits.2.2,
    poisons.not.mpr ?_⟩
  · rintro ⟨_, before, out, after, split, _, stub, _⟩
    exact outputs out (split ▸ List.mem_append_right before List.mem_cons_self) stub
  · rintro (dead | visits)
    · cases dead
    · exact settled visits.2.2

end BitcoinNode
