import BitcoinNode.CoinSelection
import Mathlib.Algebra.Order.BigOperators.Group.List

/-! What an account counts and what it can spend. An output counts when an address can be cut out
of its script; it can be spent when the script is exactly the one that payments sign. -/
namespace BitcoinNode

/-- The additions made one by one when outputs are taken from the tuple that reaches the amount. -/
def lastAdditions (value : Int) : (raised : Int) → List UtxoTuple → List Int
  | _, [] => []
  | raised, t :: rest =>
    if raised + t.worth < value then lastAdditions value (raised + t.worth) rest
    else raised :: (selectedOutputs value raised t.utxoSet).map (·.1.value.toInt)

theorem UtxoTuple.utxos_to_spend_iff {value raised : Int64} {outputs : List (TxOut × Nat)} :
    (∃ taken, utxosToSpend value outputs raised = .ok taken) ↔
      Fits (raised.toInt :: (selectedOutputs value.toInt raised.toInt outputs).map (·.1.value.toInt)) := by
  induction outputs generalizing raised with
  | nil => exact iff_of_true ⟨[], rfl⟩ (fits_singleton.mpr ⟨raised.le_toInt, raised.toInt_lt⟩)
  | cons utxo rest ih =>
    rw [selectedOutputs, List.map_cons, fits_cons_cons, and_iff_right ⟨raised.le_toInt, raised.toInt_lt⟩]
    constructor
    · rintro ⟨taken, spent⟩
      obtain ⟨raised', added, spent⟩ := Outcome.bind_eq_ok.mp spent
      rw [← checked_add_eq_ok added]
      by_cases enough : value < raised'
      · rw [if_pos (Int64.lt_iff_toInt_lt.mp enough)]
        exact fits_singleton.mpr ⟨raised'.le_toInt, raised'.toInt_lt⟩
      · rw [if_neg enough] at spent
        rw [if_neg (mt Int64.lt_iff_toInt_lt.mpr enough)]
        obtain ⟨others, later, _⟩ := Outcome.bind_eq_ok.mp spent
        exact ih.mp ⟨others, later⟩
    · intro fits
      have inside := fits_singleton.mp (fits.initial ⟨_, rfl⟩)
      obtain ⟨raised', added, raisedEq⟩ := checked_add_eq inside.1 inside.2
      rw [← raisedEq] at fits
      by_cases enough : value < raised'
      · exact ⟨[utxo], Outcome.bind_eq_ok.mpr ⟨raised', added, if_pos enough⟩⟩
      · rw [if_neg (mt Int64.lt_iff_toInt_lt.mpr enough)] at fits
        obtain ⟨others, later⟩ := ih.mpr fits
        refine ⟨utxo :: others, Outcome.bind_eq_ok.mpr ⟨raised', added, ?_⟩⟩
        rw [if_neg enough, later]
        rfl

/-- Once the balance is known, only the additions inside the last tuple can still overflow. -/
theorem get_utxos_for_amount_iff (value : Int64) {raised total : Int64} {utxos : List UtxoTuple}
    (summed : utxos.foldlM (fun balance t => do checkedAdd balance (← t.balance)) raised = .ok total) :
    (∃ taken, getUtxosForAmount value utxos raised = .ok taken) ↔
      Fits (lastAdditions value.toInt raised.toInt utxos) := by
  induction utxos generalizing raised with
  | nil =>
    refine iff_of_true ⟨[], rfl⟩ fun front before => ?_
    rw [List.prefix_nil.mp before]
    simp
  | cons t rest ih =>
    rw [List.foldlM_cons] at summed
    obtain ⟨amount, stepped, summed⟩ := Outcome.bind_eq_ok.mp summed
    obtain ⟨balance, balance_eq, added⟩ := Outcome.bind_eq_ok.mp stepped
    rw [getUtxosForAmount, balance_eq, Outcome.bind_ok, added, Outcome.bind_ok, lastAdditions,
      ← UtxoTuple.balance_eq_ok balance_eq, ← checked_add_eq_ok added]
    by_cases short : amount < value
    · rw [if_pos short, if_pos (Int64.lt_iff_toInt_lt.mp short), ← ih summed]
      constructor
      · rintro ⟨taken, selected⟩
        obtain ⟨others, later, _⟩ := Outcome.bind_eq_ok.mp selected
        exact ⟨others, later⟩
      · rintro ⟨others, later⟩
        exact ⟨t :: others, Outcome.bind_eq_ok.mpr ⟨others, later, rfl⟩⟩
    · rw [if_neg short, if_neg (mt Int64.lt_iff_toInt_lt.mpr short), ← UtxoTuple.utxos_to_spend_iff]
      constructor
      · rintro ⟨taken, selected⟩
        obtain ⟨outputs, later, _⟩ := Outcome.bind_eq_ok.mp selected
        exact ⟨outputs, later⟩
      · rintro ⟨outputs, later⟩
        exact ⟨[⟨t.hash, outputs⟩], Outcome.bind_eq_ok.mpr ⟨outputs, later, rfl⟩⟩

theorem last_additions_fits (value : Int64) {raised total : Int64} {utxos : List UtxoTuple}
    (summed : utxos.foldlM (fun balance t => do checkedAdd balance (← t.balance)) raised = .ok total)
    (nonneg : ∀ t ∈ utxos, ∀ utxo ∈ t.utxoSet, 0 ≤ utxo.1.value.toInt) :
    Fits (lastAdditions value.toInt raised.toInt utxos) := by
  induction utxos generalizing raised with
  | nil => exact (get_utxos_for_amount_iff value summed).mp ⟨[], rfl⟩
  | cons t rest ih =>
    rw [List.foldlM_cons] at summed
    obtain ⟨amount, stepped, summed⟩ := Outcome.bind_eq_ok.mp summed
    obtain ⟨balance, balance_eq, added⟩ := Outcome.bind_eq_ok.mp stepped
    obtain ⟨first, others⟩ := List.forall_mem_cons.mp nonneg
    have amountEq := checked_add_eq_ok added
    rw [UtxoTuple.balance_eq_ok balance_eq] at amountEq
    rw [lastAdditions, ← amountEq]
    split_ifs
    · exact ih summed others
    · intro front before
      have whole := before.trans (List.cons_prefix_cons.mpr
        ⟨rfl, (selected_outputs_initial value.toInt raised.toInt t.utxoSet).map _⟩)
      rcases List.prefix_cons_iff.mp whole with rfl | ⟨front, rfl, back, split⟩
      · simp
      have values (v : Int) (member : v ∈ front ++ back) : 0 ≤ v := by
        rw [split] at member
        obtain ⟨utxo, listed, rfl⟩ := List.mem_map.mp member
        exact first utxo listed
      have behind : 0 ≤ front.sum := List.sum_nonneg fun v member => values v (by simp [member])
      have ahead : 0 ≤ back.sum := List.sum_nonneg fun v member => values v (by simp [member])
      rw [UtxoTuple.worth, ← split, List.sum_append] at amountEq
      have low := raised.le_toInt
      have high := amount.toInt_lt
      rw [List.sum_cons]
      omega

theorem selection_balance {value raised total : Int64} {utxos : List UtxoTuple}
    (summed : utxos.foldlM (fun balance t => do checkedAdd balance (← t.balance)) raised = .ok total)
    (fits : Fits (lastAdditions value.toInt raised.toInt utxos)) :
    ∃ inputBalance, (selection value.toInt raised.toInt utxos).foldlM
      (fun balance t => do checkedAdd balance (← t.balance)) raised = .ok inputBalance := by
  induction utxos generalizing raised with
  | nil => exact ⟨raised, rfl⟩
  | cons t rest ih =>
    rw [List.foldlM_cons] at summed
    obtain ⟨amount, stepped, summed⟩ := Outcome.bind_eq_ok.mp summed
    obtain ⟨balance, balance_eq, added⟩ := Outcome.bind_eq_ok.mp stepped
    rw [lastAdditions] at fits
    rw [selection]
    rw [← UtxoTuple.balance_eq_ok balance_eq, ← checked_add_eq_ok added] at fits ⊢
    by_cases short : amount.toInt < value.toInt
    · rw [if_pos short] at fits ⊢
      obtain ⟨inputBalance, later⟩ := ih summed fits
      exact ⟨inputBalance, by rw [List.foldlM_cons, stepped, Outcome.bind_ok, later]⟩
    · rw [if_neg short] at fits ⊢
      have taken := selected_outputs_initial value.toInt raised.toInt t.utxoSet
      have inside : Fits ((0 : Int64).toInt ::
          (selectedOutputs value.toInt raised.toInt t.utxoSet).map (·.1.value.toInt)) :=
        (foldlM_checked_add_iff.mp ⟨balance, balance_eq⟩).initial
          (List.cons_prefix_cons.mpr ⟨rfl, taken.map _⟩)
      obtain ⟨part, partEq⟩ := foldlM_checked_add_iff.mpr inside
      have sum := fits _ List.prefix_rfl
      have partWorth := UtxoTuple.balance_eq_ok (t := ⟨t.hash, _⟩) partEq
      rw [UtxoTuple.worth] at partWorth
      rw [List.sum_cons, ← partWorth] at sum
      obtain ⟨inputBalance, inputAdded, _⟩ := checked_add_eq sum.1 sum.2
      refine ⟨inputBalance, ?_⟩
      have last : (⟨t.hash, selectedOutputs value.toInt raised.toInt t.utxoSet⟩ : UtxoTuple).balance =
          .ok part := partEq
      rw [List.foldlM_cons, last, Outcome.bind_ok, inputAdded]
      rfl

theorem len_encode_testnet {rest : List UInt8} (length : rest.length = 24) :
    Str.len (Base58.encode (0x6f :: rest)).toList = 34 :=
  Base58.len_encode_version length (by decide) (by decide) (by decide)

theorem checked_slice_middle (front cut back : List UInt8) {start stop : Nat}
    (before : front.length = start) (after : start + cut.length = stop) :
    (checkedSlice (front ++ cut ++ back) start stop : Outcome ε (List UInt8)) = .ok cut := by
  subst before after
  rw [checkedSlice, if_pos (by simp), slice_middle]

section Spendable

variable [WalletCrates]

/-- What is documented of the crates: Base58 is read back, and an accepted key signs any hash with
at most 72 bytes. -/
structure WalletCrates.Lawful : Prop where
  encode : ∀ bytes, Crates.bs58Encode bytes = Base58.encode bytes
  decode : ∀ bytes, WalletCrates.bs58Decode (Base58.encode bytes) = .ok bytes
  sign : ∀ key publicKey, WalletCrates.publicKey key = .ok publicKey → ∀ hash,
    ∃ signature, WalletCrates.sign key hash = .ok signature ∧ signature.length ≤ 72

/-- The testnet P2PKH address of a public key hash. -/
def testnetAddress (pubkeyHash : U8Array 20) : String :=
  Base58.encode (0x6f :: pubkeyHash.val ++ addressChecksum (0x6f :: pubkeyHash.val))

theorem address_checksum_length (bytes : List UInt8) : (addressChecksum bytes).length = 4 := by
  simp [addressChecksum]

theorem validate_testnet_address (lawful : WalletCrates.Lawful) (pubkeyHash : U8Array 20) :
    validateAddress (testnetAddress pubkeyHash) = .ok () := by
  have length : Str.len (testnetAddress pubkeyHash).toList = 34 :=
    len_encode_testnet (by simp [address_checksum_length])
  rw [validateAddress, length, if_neg (by simp), testnetAddress, lawful.decode]
  simp [Outcome.ofResult, checkedLengthSub, address_checksum_length]

theorem get_pubkey_hash_from_testnet_address (lawful : WalletCrates.Lawful) (pubkeyHash : U8Array 20) :
    getPubkeyHashFromAddress (testnetAddress pubkeyHash) = .ok pubkeyHash := by
  rw [getPubkeyHashFromAddress, validate_testnet_address lawful, Outcome.bind_ok, testnetAddress,
    lawful.decode]
  simp [Outcome.ofResult, checkedLengthSub, address_checksum_length, checkedSlice, slice, copyArray]

/-- The script that payments sign, with any byte in place of the number of bytes to push. -/
def PaysToPubkeyHash (script : List UInt8) (pubkeyHash : U8Array 20) : Prop :=
  ∃ push, script = [opDup, opHash160, push] ++ pubkeyHash.val ++ [opEqualverify, opChecksig]

theorem encode_eq_testnet_address (lawful : WalletCrates.Lawful) {cut checksum : List UInt8}
    {pubkeyHash : U8Array 20} (four : checksum.length = 4)
    (same : Crates.bs58Encode ([0x6f] ++ cut ++ checksum) = testnetAddress pubkeyHash) :
    cut = pubkeyHash.val := by
  rw [lawful.encode, testnetAddress] at same
  have bytes := Base58.encode_injective same
  have tails : cut ++ checksum = pubkeyHash.val ++ addressChecksum (0x6f :: pubkeyHash.val) := by
    simpa using bytes
  exact (List.append_inj' tails (by rw [four, address_checksum_length])).1

/-- The scripts that are attributed to an address: the witness program of its hash, and whatever
starts with `opDup` and has the hash in the right place. -/
theorem get_address_testnet (lawful : WalletCrates.Lawful) {out : TxOut} {pubkeyHash : U8Array 20}
    (paid : out.getAddress = .ok (testnetAddress pubkeyHash)) :
    (∃ push, out.pkScript.bytes = [0x00, push] ++ pubkeyHash.val) ∨
      ∃ op push verify check,
        out.pkScript.bytes = [opDup, op, push] ++ pubkeyHash.val ++ [verify, check] := by
  rw [TxOut.getAddress, Pubkey.generateAddress] at paid
  rcases bytes : out.pkScript.bytes with _ | ⟨first, _ | ⟨second, _ | ⟨third, rest⟩⟩⟩
  all_goals rw [bytes] at paid
  · cases paid
  · cases paid
  · cases paid
  by_cases short : (first :: second :: third :: rest).length ≤ 3
  · rw [if_pos short] at paid
    cases paid
  rw [if_neg short] at paid
  simp only [Outcome.index, List.getElem?_cons_zero, Outcome.bind_ok] at paid
  obtain ⟨legacy, cut, paid⟩ := Outcome.bind_eq_ok.mp paid
  have addressed := Except.ok.inj paid
  by_cases witness : first = 0x00
  · subst witness
    cases cut
    rw [if_pos rfl, List.append_nil] at addressed
    have hash := encode_eq_testnet_address lawful (by simp) addressed
    exact .inl ⟨second, by simpa using hash⟩
  rw [if_neg witness, List.append_nil] at addressed
  have hash := encode_eq_testnet_address lawful (by simp) addressed
  by_cases dup : first = opDup
  · rw [if_pos dup] at cut
    split_ifs at cut
    · cases cut
    have middle := (Except.ok.inj cut).trans hash
    have front : rest.take (rest.length - 2) = pubkeyHash.val := by simpa [slice] using middle
    have length : min (rest.length - 2) rest.length = 20 := by simpa using congrArg List.length front
    obtain ⟨verify, check, ends⟩ := List.length_eq_two.mp
      (show (rest.drop (rest.length - 2)).length = 2 by simp; omega)
    refine .inr ⟨second, third, verify, check, ?_⟩
    rw [dup, ← front, ← ends]
    simp
  · rw [if_neg dup] at cut
    cases cut
    have length := congrArg List.length hash
    simp at length

/-- The script that unlocks an output: the signature and the key, each after its length. -/
def unlocking (signature : List UInt8) (publicKey : U8Array 33) : SigScript :=
  ⟨UInt8.ofNat (signature ++ [0x01]).length :: (signature ++ [0x01]) ++ UInt8.ofNat 33 :: publicKey.val⟩

theorem SpendingAccount.new_eq_ok (lawful : WalletCrates.Lawful) {wifPrivateKey address : String}
    {account : SpendingAccount} (made : new wifPrivateKey address = .ok account) :
    ∃ key publicKey, decodeWifPrivateKey account.privateKey = .ok key ∧
      WalletCrates.publicKey key = .ok publicKey ∧
      account.address = testnetAddress (hash160 publicKey.val) := by
  obtain ⟨key, decoded, made⟩ := Outcome.bind_eq_ok.mp made
  obtain ⟨_, checked, same⟩ := Outcome.bind_eq_ok.mp made
  cases same
  obtain ⟨generated, addressEq, compared⟩ := Outcome.bind_eq_ok.mp checked
  split_ifs at compared with same
  · subst same
    obtain ⟨publicKey, derived, generatedEq⟩ := Outcome.bind_eq_ok.mp addressEq
    rcases accepted : WalletCrates.publicKey key with _ | publicKey'
    · rw [accepted] at derived
      cases derived
    · rw [accepted] at derived
      cases derived
      exact ⟨key, publicKey, decoded, accepted,
        (Except.ok.inj generatedEq).symm.trans (lawful.encode _)⟩
  · cases compared

theorem SigScript.generate_sig_script_ok (lawful : WalletCrates.Lawful) {account : SpendingAccount}
    {key : U8Array 32} {publicKey : U8Array 33}
    (decoded : decodeWifPrivateKey account.privateKey = .ok key)
    (derived : WalletCrates.publicKey key = .ok publicKey) (hash : U8Array 32) :
    ∃ signature, generateSigScript hash account = .ok (unlocking signature publicKey) ∧
      signature.length ≤ 72 := by
  obtain ⟨signature, signed, short⟩ := lawful.sign key publicKey derived hash
  refine ⟨signature, ?_, short⟩
  rw [generateSigScript, getPubkeyCompressed, decoded, Outcome.bind_ok, Outcome.bind_ok, signed, derived]
  rfl

/-- Of the scripts that are counted, only the one that payments sign passes. -/
theorem p2pkh_script_validate_counted {script signature : List UInt8} {publicKey : U8Array 33}
    (short : signature.length ≤ 72)
    (counted : (∃ push, script = [0x00, push] ++ (hash160 publicKey.val).val) ∨
      ∃ op push verify check,
        script = [opDup, op, push] ++ (hash160 publicKey.val).val ++ [verify, check]) :
    p2pkhScriptValidate script (unlocking signature publicKey).bytes = .ok true ↔
      PaysToPubkeyHash script (hash160 publicKey.val) := by
  have pushed : (UInt8.ofNat (signature ++ [0x01]).length).toNat = signature.length + 1 := by
    rw [List.length_append, List.length_singleton]
    exact UInt8.toNat_ofNat_of_lt' (show signature.length + 1 < 256 by omega)
  have key : (checkedSlice (unlocking signature publicKey).bytes
      ((UInt8.ofNat (signature ++ [0x01]).length).toNat + 2)
      ((UInt8.ofNat (signature ++ [0x01]).length).toNat + 35) : Outcome String (List UInt8)) =
        .ok publicKey.val := by
    have parts : (unlocking signature publicKey).bytes =
        (UInt8.ofNat (signature ++ [0x01]).length :: (signature ++ [0x01]) ++ [UInt8.ofNat 33]) ++
          publicKey.val ++ [] := by
      simp [unlocking]
    rw [pushed, parts]
    exact checked_slice_middle _ _ _ (by simp) (by simp)
  have head : (Outcome.index (unlocking signature publicKey).bytes 0 : Outcome String UInt8) =
      .ok (UInt8.ofNat (signature ++ [0x01]).length) := rfl
  rw [p2pkhScriptValidate, head, Outcome.bind_ok, key, Outcome.bind_ok]
  generalize hash160 publicKey.val = hash at counted ⊢
  rcases counted with ⟨push, rfl⟩ | ⟨op, push, verify, check, rfl⟩
  · have first : (checkedSlice ([0x00, push] ++ hash.val) 0 1 : Outcome String _) = .ok [0x00] :=
      checked_slice_middle [] [0x00] (push :: hash.val) rfl rfl
    rw [first, Outcome.bind_ok, if_pos (by decide)]
    constructor
    · rintro (h : Except.ok false = .ok true)
      cases h
    · rintro ⟨_, same⟩
      exact absurd (List.cons.inj same).1 (by decide)
  · have cut (front cut back : List UInt8)
        (parts : [opDup, op, push] ++ hash.val ++ [verify, check] = front ++ cut ++ back) :
        (checkedSlice ([opDup, op, push] ++ hash.val ++ [verify, check]) front.length
          (front.length + cut.length) : Outcome String _) = .ok cut := by
      rw [parts]
      exact checked_slice_middle _ _ _ rfl rfl
    have dup := cut [] [opDup] _ rfl
    have hash160 := cut [opDup] [op] (push :: hash.val ++ [verify, check]) rfl
    have hashed := cut [opDup, op, push] hash.val [verify, check] rfl
    have verified := cut ([opDup, op, push] ++ hash.val) [verify] [check] (by simp)
    have checked := cut ([opDup, op, push] ++ hash.val ++ [verify]) [check] [] (by simp)
    simp only [List.length_nil, List.length_cons, List.length_append, U8Array.length_val, Nat.reduceAdd]
      at dup hash160 hashed verified checked
    rw [dup, hash160, hashed, verified, checked]
    have template : PaysToPubkeyHash ([opDup, op, push] ++ hash.val ++ [verify, check]) hash ↔
        op = opHash160 ∧ verify = opEqualverify ∧ check = opChecksig := by
      simp [PaysToPubkeyHash]
    rw [template]
    by_cases opEq : op = opHash160 <;> by_cases verifyEq : verify = opEqualverify <;>
      by_cases checkEq : check = opChecksig <;> simp [opEq, verifyEq, checkEq]

theorem Transaction.generate_unsigned_ok (lawful : WalletCrates.Lawful) {utxosToSpend : List UtxoTuple}
    {amount fee value inputBalance : Int64} (receiver change : U8Array 20)
    (sum : checkedAdd amount fee = .ok value) (nonneg : 0 ≤ value.toInt)
    (summed : utxosToSpend.foldlM (fun balance t => do checkedAdd balance (← t.balance)) 0 =
      .ok inputBalance)
    (reached : value.toInt ≤ inputBalance.toInt) :
    ∃ tx, generateUnsignedTransaction (testnetAddress receiver) (testnetAddress change) amount fee
        utxosToSpend = .ok tx ∧ tx.txIn.length = (holdings utxosToSpend).length := by
  have high := inputBalance.toInt_lt
  obtain ⟨changeAmount, changed, _⟩ := checked_sub_eq (a := inputBalance) (b := value)
    (by omega) (by omega)
  simp only [generateUnsignedTransaction, summed, sum, changed, Outcome.widen_ok, Outcome.bind_ok,
    generatePubkeyScript, get_pubkey_hash_from_testnet_address lawful, Outcome.pure_eq]
  refine ⟨_, rfl, ?_⟩
  simp [holdings, List.length_flatMap]

theorem Transaction.sign_ok (lawful : WalletCrates.Lawful) {account : SpendingAccount} {key : U8Array 32}
    {publicKey : U8Array 33} (decoded : decodeWifPrivateKey account.privateKey = .ok key)
    (derived : WalletCrates.publicKey key = .ok publicKey) (tx : Transaction)
    (utxosToSpend : List UtxoTuple) :
    ∃ signed, tx.sign account utxosToSpend = .ok signed ∧ signed.txIn.length = tx.txIn.length ∧
      ∀ txin ∈ signed.txIn, ∃ signature, txin.signatureScript = unlocking signature publicKey ∧
        signature.length ≤ 72 := by
  have signs : ∀ index ∈ List.range tx.txIn.length, ∃ script,
      SigScript.generateSigScript (tx.generateMessageToSign index utxosToSpend) account = .ok script ∧
        ∃ signature, script = unlocking signature publicKey ∧ signature.length ≤ 72 := by
    intro index _
    obtain ⟨signature, generated, short⟩ := SigScript.generate_sig_script_ok lawful decoded derived
      (tx.generateMessageToSign index utxosToSpend)
    exact ⟨_, generated, signature, rfl, short⟩
  obtain ⟨signatures, mapped, each⟩ := Outcome.mapM_eq_ok signs
  have length : signatures.length = tx.txIn.length := by
    rw [Outcome.mapM_length mapped, List.length_range]
  refine ⟨_, Outcome.bind_eq_ok.mpr ⟨signatures, mapped, rfl⟩, by simp [length], fun txin member => ?_⟩
  obtain ⟨i, bound, rfl⟩ := List.getElem_of_mem member
  rw [List.getElem_zipWith]
  exact each _ (List.getElem_mem _)

/-- A payment passes its own check when every script it spends from is the one that is signed. -/
theorem Transaction.validate_iff {tx : Transaction} {utxosToSpend : List UtxoTuple}
    {publicKey : U8Array 33} (length : tx.txIn.length = (holdings utxosToSpend).length)
    (unlocked : ∀ txin ∈ tx.txIn, ∃ signature, txin.signatureScript = unlocking signature publicKey ∧
      signature.length ≤ 72)
    (counted : ∀ held ∈ holdings utxosToSpend,
      (∃ push, held.2.1.pkScript.bytes = [0x00, push] ++ (hash160 publicKey.val).val) ∨
        ∃ op push verify check, held.2.1.pkScript.bytes =
          [opDup, op, push] ++ (hash160 publicKey.val).val ++ [verify, check]) :
    tx.validate utxosToSpend = .ok () ↔
      ∀ held ∈ holdings utxosToSpend,
        PaysToPubkeyHash held.2.1.pkScript.bytes (hash160 publicKey.val) := by
  -- One input against the script at its position.
  have each (i : Nat) (input : i < tx.txIn.length) (output : i < (holdings utxosToSpend).length) :
      (do
        let p2pkhScript ← Outcome.index ((holdings utxosToSpend).map (·.2.1.pkScript.bytes)) i
        if ← p2pkhScriptValidate p2pkhScript tx.txIn[i].signatureScript.bytes then return ()
        else Outcome.fail "The p2pkh script is not valid" : Outcome String Unit) = .ok () ↔
        PaysToPubkeyHash (holdings utxosToSpend)[i].2.1.pkScript.bytes (hash160 publicKey.val) := by
    obtain ⟨signature, script, short⟩ := unlocked _ (List.getElem_mem input)
    rw [Outcome.index_of_lt _ _ (by simpa using output), Outcome.bind_ok, List.getElem_map, script,
      ← p2pkh_script_validate_counted short (counted _ (List.getElem_mem output))]
    rcases p2pkhScriptValidate _ _ with _ | passed
    · simp
    · cases passed <;> simp [Outcome.fail]
  rw [validate, p2pkh_scripts_eq, Outcome.forM_eq_ok]
  constructor
  · intro valid held member
    obtain ⟨i, bound, rfl⟩ := List.getElem_of_mem member
    exact (each i (by omega) bound).mp
      (valid _ (List.mk_mem_zipIdx_iff_getElem?.mpr (by simp [length, bound])))
  · rintro all ⟨txin, i⟩ member
    obtain ⟨bound, same⟩ := List.mem_zipIdx' member
    rw [same]
    exact (each i bound (by omega)).mpr (all _ (List.getElem_mem _))

theorem UtxoTuple.mem_referenced {t kept : UtxoTuple} {address : String}
    (referenced : t.referencedUtxos address = .ok (some kept)) :
    ∀ utxo ∈ kept.utxoSet, utxo.1.getAddress = .ok address := by
  intro utxo member
  obtain ⟨outputs, filtered, pushed⟩ := Outcome.bind_eq_ok.mp referenced
  by_cases empty : outputs.isEmpty
  · rw [if_pos empty] at pushed
    cases pushed
  rw [if_neg empty] at pushed
  cases pushed
  obtain ⟨x, _, compared⟩ := Outcome.mem_of_collect filtered utxo member
  obtain ⟨attempted, attempt, compared⟩ := Outcome.bind_eq_ok.mp compared
  rcases addressEq : x.1.getAddress with e | value
  · rcases e with _ | _ | _ <;> rw [addressEq] at attempt <;> cases attempt
    cases compared
  · rw [addressEq] at attempt
    cases attempt
    by_cases same : address = value
    · subst same
      simp only [if_pos] at compared
      cases compared
      exact addressEq
    · simp only [if_neg same] at compared
      cases compared

theorem selected_counted (lawful : WalletCrates.Lawful) {visit : List (Hash × UtxoTuple)}
    {pubkeyHash : U8Array 20} {utxos : List UtxoTuple}
    (set : utxosReferencedToAccount visit (testnetAddress pubkeyHash) = .ok utxos) (value : Int) :
    ∀ entry ∈ holdings (selection value 0 utxos),
      (∃ push, entry.2.1.pkScript.bytes = [0x00, push] ++ pubkeyHash.val) ∨
        ∃ op push verify check,
          entry.2.1.pkScript.bytes = [opDup, op, push] ++ pubkeyHash.val ++ [verify, check] := by
  intro entry selected
  have member := (holdings_selection_sublist value 0 utxos).subset selected
  obtain ⟨t, kept, listed⟩ := List.mem_flatMap.mp member
  obtain ⟨utxo, output, rfl⟩ := List.mem_map.mp listed
  obtain ⟨⟨_, visited⟩, _, referenced⟩ := Outcome.mem_of_collect set t kept
  exact get_address_testnet lawful (UtxoTuple.mem_referenced referenced utxo output)

theorem SpendingAccount.signed_transaction_iff (lawful : WalletCrates.Lawful) {account : SpendingAccount}
    {key : U8Array 32} {publicKey : U8Array 33}
    (decoded : decodeWifPrivateKey account.privateKey = .ok key)
    (derived : WalletCrates.publicKey key = .ok publicKey)
    (address : account.address = testnetAddress (hash160 publicKey.val)) (receiver : U8Array 20)
    {amount fee value : Int64} (sum : checkedAdd amount fee = .ok value) (nonneg : 0 ≤ value.toInt)
    (enough : account.hasBalance value = .ok true)
    (counted : ∀ entry ∈ holdings (selection value.toInt 0 account.utxoSet),
      (∃ push, entry.2.1.pkScript.bytes = [0x00, push] ++ (hash160 publicKey.val).val) ∨
        ∃ op push verify check, entry.2.1.pkScript.bytes =
          [opDup, op, push] ++ (hash160 publicKey.val).val ++ [verify, check]) :
    (∃ tx, account.signedTransaction (testnetAddress receiver) amount fee = .ok tx) ↔
      Fits (lastAdditions value.toInt 0 account.utxoSet) ∧
      ∀ entry ∈ holdings (selection value.toInt 0 account.utxoSet),
        PaysToPubkeyHash entry.2.1.pkScript.bytes (hash160 publicKey.val) := by
  obtain ⟨balance, summed, exceeded⟩ := Outcome.bind_eq_ok.mp enough
  have exceeds := Int64.lt_iff_toInt_lt.mp (of_decide_eq_true (Except.ok.inj exceeded))
  have total := balances_eq_ok summed
  have fitsIff := get_utxos_for_amount_iff value summed
  rw [Int64.toInt_zero] at fitsIff total
  rw [signedTransaction, validate_testnet_address lawful, Outcome.bind_ok, sum, Outcome.widen_ok,
    Outcome.bind_ok, enough, Outcome.widen_ok, Outcome.bind_ok]
  by_cases fits : Fits (lastAdditions value.toInt 0 account.utxoSet)
  · obtain ⟨taken, selected⟩ := fitsIff.mpr fits
    obtain rfl := get_utxos_for_amount_eq_ok selected
    rw [Int64.toInt_zero] at selected
    obtain ⟨inputBalance, inputs⟩ := selection_balance summed fits
    have inputTotal := balances_eq_ok inputs
    have reached := selection_enough value.toInt 0 account.utxoSet (by omega)
    rw [Int64.toInt_zero] at inputs inputTotal
    obtain ⟨unsigned, generated, length⟩ := Transaction.generate_unsigned_ok lawful receiver
      (hash160 publicKey.val) sum nonneg inputs (by omega)
    obtain ⟨signed, signs, sameLength, unlocked⟩ := Transaction.sign_ok lawful decoded derived unsigned
      (selection value.toInt 0 account.utxoSet)
    rw [← address] at generated
    rw [selected, Outcome.widen_ok, Bool.not_true, if_neg Bool.false_ne_true, Outcome.bind_ok, generated,
      Outcome.bind_ok, signs, Outcome.bind_ok, and_iff_right fits,
      ← Transaction.validate_iff (sameLength.trans length) unlocked counted]
    constructor
    · rintro ⟨tx, validated⟩
      obtain ⟨_, valid, _⟩ := Outcome.bind_eq_ok.mp validated
      exact valid
    · intro valid
      exact ⟨signed, Outcome.bind_eq_ok.mpr ⟨(), valid, rfl⟩⟩
  · refine iff_of_false ?_ fun both => fits both.1
    rintro ⟨tx, paid⟩
    rw [Bool.not_true, if_neg Bool.false_ne_true] at paid
    obtain ⟨taken, selected, _⟩ := Outcome.bind_eq_ok.mp paid
    exact fits (fitsIff.mp ⟨taken, Outcome.widen_eq_ok.mp selected⟩)

theorem SpendingAccount.make_transaction_iff (account : SpendingAccount) (addressReceiver : String)
    (amount fee : Int64) :
    (∃ tx account', (makeTransaction addressReceiver amount fee).run account = (.ok tx, account')) ↔
      ∃ tx, account.signedTransaction addressReceiver amount fee = .ok tx := by
  rw [makeTransaction, Proc.run_bind_ok _ (Proc.run_get account)]
  constructor
  · rintro ⟨tx, account', ran⟩
    obtain ⟨tx', _, lifted, _⟩ := Proc.run_bind_eq_ok ran
    exact ⟨tx', (Prod.mk.inj lifted).1⟩
  · rintro ⟨tx, signed⟩
    rw [signed]
    exact ⟨tx, account.addTransaction tx, rfl⟩

/-- A payment from counted outputs comes out exactly when adding up the last of the selected tuples
stays in 64 bits and every selected script is the one that is signed. -/
theorem SpendingAccount.counted_spendable (lawful : WalletCrates.Lawful)
    {wifPrivateKey address : String} {made account : SpendingAccount}
    (new_account : new wifPrivateKey address = .ok made) (key : account.privateKey = made.privateKey)
    {visit : List (Hash × UtxoTuple)}
    (set : made.toAccount.setUtxos visit = .ok account.toAccount ∨
      ∃ utxos, utxosReferencedToAccount visit made.address = .ok utxos ∧
        account.toAccount = made.toAccount.loadUtxos utxos)
    (receiver : U8Array 20) {amount fee value : Int64} (amountPos : 0 < amount) (feePos : 0 < fee)
    (sum : checkedAdd amount fee = .ok value) (enough : account.hasBalance value = .ok true) :
    ∃ publicKey, getPubkeyCompressed account.privateKey = .ok publicKey ∧
      ((∃ tx account', (makeTransaction (testnetAddress receiver) amount fee).run account =
          (.ok tx, account')) ↔
        Fits (lastAdditions value.toInt 0 account.utxoSet) ∧
        ∀ entry ∈ holdings (selection value.toInt 0 account.utxoSet),
          PaysToPubkeyHash entry.2.1.pkScript.bytes (hash160 publicKey.val)) := by
  obtain ⟨rawKey, publicKey, decoded, derived, madeAddress⟩ := new_eq_ok lawful new_account
  rw [← key] at decoded
  have loaded : ∃ utxos, utxosReferencedToAccount visit made.address = .ok utxos ∧
      account.toAccount = made.toAccount.loadUtxos utxos := by
    rcases set with set | loaded
    · rw [Account.set_utxos_eq_load] at set
      obtain ⟨utxos, referenced, same⟩ := Outcome.bind_eq_ok.mp set
      exact ⟨utxos, referenced, (Except.ok.inj same).symm⟩
    · exact loaded
  obtain ⟨utxos, referenced, same⟩ := loaded
  rw [madeAddress] at referenced
  have addressEq : account.address = testnetAddress (hash160 publicKey.val) := by
    rw [same, ← madeAddress]
    rfl
  have outputs : account.utxoSet = utxos := by rw [same, Account.loadUtxos]
  have nonneg : 0 ≤ value.toInt := by
    have amountPos := Int64.lt_iff_toInt_lt.mp amountPos
    have feePos := Int64.lt_iff_toInt_lt.mp feePos
    rw [Int64.toInt_zero] at amountPos feePos
    rw [checked_add_eq_ok sum]
    omega
  refine ⟨publicKey, ?_, ?_⟩
  · rw [getPubkeyCompressed, decoded, Outcome.bind_ok, derived]
    rfl
  · rw [make_transaction_iff]
    have counted := selected_counted lawful referenced value.toInt
    rw [← outputs] at counted
    exact signed_transaction_iff lawful decoded derived addressEq receiver sum nonneg enough counted

end Spendable

namespace OneKey

def receiverHash : U8Array 20 :=
  ⟨[104, 4, 157, 166, 108, 164, 60, 174, 202, 218, 134, 73, 111, 233, 122, 115, 242, 31, 49, 54], rfl⟩

theorem signature_short (hash : U8Array 32) :
    ((signatures.lookup (hash.val.take 4)).getD (List.replicate 70 0)).length ≤ 72 := by
  have each : ∀ entry ∈ signatures, entry.2.length ≤ 72 := by decide
  rcases found : signatures.lookup (hash.val.take 4) with _ | signature
  · simp
  · obtain ⟨front, back, split, _⟩ := List.lookup_eq_some_iff.mp found
    exact each (hash.val.take 4, signature) (by simp [split])

theorem crates_lawful : @WalletCrates.Lawful OneKey.crates := by
  refine @WalletCrates.Lawful.mk OneKey.crates (fun _ => rfl) (fun bytes => ?_)
    (fun key _ accepted hash => ?_)
  · simp only [WalletCrates.bs58Decode, Base58.decode_encode]
  · have same : key = privateKey := by
      by_contra other
      cases accepted.symm.trans (if_neg other)
    exact ⟨_, if_pos same, signature_short hash⟩

theorem new_account (pkScript : List UInt8) :
    let _ := OneKey.crates
    SpendingAccount.new (account pkScript).privateKey address =
      .ok ⟨⟨address, [], [], []⟩, (account pkScript).privateKey⟩ := by
  intro _
  have decoded : decodeWifPrivateKey "cMoBjaYS6EraKLNqrNN8DvN93Nnt6pJNfWkYM8pUufYQB5EVZ7SR" =
      .ok privateKey := by
    decide +kernel
  have valid : validateAddressPrivateKey privateKey address = .ok () := by decide +kernel
  rw [SpendingAccount.new, account, decoded, Outcome.bind_ok, valid]
  rfl

/-- A map with one output of ten satoshis under this script. -/
def visit (pkScript : List UInt8) : List (Hash × UtxoTuple) :=
  (account pkScript).utxoSet.map fun t => (t.hash, t)

theorem set_utxos_visit {pkScript : List UInt8}
    (paid : @TxOut.getAddress OneKey.crates.toCrates (TxOut.new 10 pkScript) = .ok address) :
    @Account.setUtxos OneKey.crates.toCrates ⟨address, [], [], []⟩ (visit pkScript) =
      .ok (account pkScript).toAccount := by
  have safe : ∀ entry ∈ visit pkScript, ∀ utxo ∈ entry.2.utxoSet, ∀ e,
      @TxOut.getAddress OneKey.crates.toCrates utxo.1 = .error e → ∃ text, e = .err text := by
    intro entry visited utxo listed e failed
    obtain rfl := List.mem_singleton.mp visited
    obtain rfl := List.mem_singleton.mp listed
    cases paid.symm.trans failed
  rw [@Account.set_utxos_eq OneKey.crates.toCrates _ _ safe]
  simp [visit, account, UtxoTuple.kept, UtxoTuple.paid, paid]

end OneKey

/-- A witness program of the account's own key hash is counted, and no payment from it comes out. -/
theorem SpendingAccount.counted_spendable_witness_program :
    let _ := OneKey.crates
    let script := [0x00, 20] ++ OneKey.pubkeyHash.val
    ∃ account, new (OneKey.account script).privateKey OneKey.address = .ok account ∧
      ∃ held, account.toAccount.setUtxos (OneKey.visit script) = .ok held ∧
        let account : SpendingAccount := { account with toAccount := held }
        checkedAdd 5 2 = .ok 7 ∧ account.hasBalance 7 = .ok true ∧
        ((makeTransaction (testnetAddress OneKey.receiverHash) 5 2).run account).1 =
          .error (.err "The p2pkh script is not valid") := by
  intro _ script
  have paid : (TxOut.new 10 script).getAddress = .ok OneKey.address := by decide +kernel
  exact ⟨_, OneKey.new_account script, (OneKey.account script).toAccount, OneKey.set_utxos_visit paid,
    by decide +kernel, by decide +kernel, by decide +kernel⟩

/-- A payment of five satoshis and a fee of two from a P2PKH output of ten. -/
theorem SpendingAccount.counted_spendable_p2pkh :
    let _ := OneKey.crates
    let account := OneKey.account OneKey.p2pkh
    ∃ publicKey, getPubkeyCompressed account.privateKey = .ok publicKey ∧
      ((∃ tx account', (makeTransaction (testnetAddress OneKey.receiverHash) 5 2).run account =
          (.ok tx, account')) ↔
        Fits (lastAdditions (7 : Int64).toInt 0 account.utxoSet) ∧
        ∀ entry ∈ holdings (selection (7 : Int64).toInt 0 account.utxoSet),
          PaysToPubkeyHash entry.2.1.pkScript.bytes (hash160 publicKey.val)) := by
  intro crates account
  have paid : (TxOut.new 10 OneKey.p2pkh).getAddress = .ok OneKey.address := by decide +kernel
  have enough : account.hasBalance 7 = .ok true := by decide +kernel
  exact @counted_spendable crates OneKey.crates_lawful _ _ _ account
    (OneKey.new_account OneKey.p2pkh) rfl (OneKey.visit OneKey.p2pkh) (.inl (OneKey.set_utxos_visit paid))
    OneKey.receiverHash 5 2 7 (by decide) (by decide) (by decide +kernel) enough

end BitcoinNode
