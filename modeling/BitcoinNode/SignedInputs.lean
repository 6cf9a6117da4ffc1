import BitcoinNode.SelectedCoins

/-! Signing and script checking go through the outputs that are spent in the same order. The message
for an input is built from the output it names, and its signature is checked against that output. -/
namespace BitcoinNode

def TxIn.carrying (held : Hash × TxOut × Nat) (script : List UInt8) : TxIn :=
  (TxIn.incompleteTxin (outpointOf held)).add ⟨script⟩

/-- A transaction as it is signed for one input: only that input carries a script. -/
def Transaction.signingCopy (tx : Transaction) (utxosToSpend : List UtxoTuple) (i : Nat) : Transaction :=
  { tx with txIn := (holdings utxosToSpend).mapIdx fun j held =>
      TxIn.carrying held (if j = i then held.2.1.pkScript.bytes else []) }

theorem TxIn.names_carrying {held : Hash × TxOut × Nat} (small : held.2.2 < 2 ^ 32) (script : List UInt8) :
    (TxIn.carrying held script).names = heldOutpoint held := by
  have index : (UInt32.ofNat held.2.2).toNat = held.2.2 := UInt32.toNat_ofNat_of_lt' small
  exact congrArg (held.1, ·) index

theorem UtxoTuple.find_of_mem {t : UtxoTuple} (indexes : (t.utxoSet.map Prod.snd).Nodup)
    {utxo : TxOut × Nat} (inside : utxo ∈ t.utxoSet) :
    t.find t.hash utxo.2 = some utxo.1.pkScript.bytes := by
  have found : t.utxoSet.find? (·.2 = utxo.2) = some utxo := by
    generalize t.utxoSet = outputs at indexes inside ⊢
    induction outputs with
    | nil => exact absurd inside List.not_mem_nil
    | cons first rest ih =>
      obtain ⟨apart, others⟩ := List.nodup_cons.mp indexes
      rcases List.mem_cons.mp inside with rfl | later
      · simp
      · have other : first.2 ≠ utxo.2 := fun same => apart (same ▸ List.mem_map_of_mem later)
        rw [List.find?_cons_of_neg (by simpa using other)]
        exact ih others later
  rw [find, if_neg (by simp), found]
  rfl

theorem script_to_sign_eq {utxosToSpend : List UtxoTuple}
    (hashes : (utxosToSpend.map UtxoTuple.hash).Nodup)
    (indexes : ∀ t ∈ utxosToSpend, (t.utxoSet.map Prod.snd).Nodup) {held : Hash × TxOut × Nat}
    (member : held ∈ holdings utxosToSpend) {txin : TxIn} (names : txin.names = heldOutpoint held) :
    scriptToSign txin utxosToSpend = held.2.1.pkScript.bytes := by
  obtain ⟨t, listed, inside⟩ := List.mem_flatMap.mp member
  obtain ⟨utxo, here, rfl⟩ := List.mem_map.mp inside
  obtain ⟨front, back, rfl⟩ := List.append_of_mem listed
  obtain ⟨hash, index⟩ := Prod.mk.inj names
  have later : ∀ t' ∈ back, t'.hash ≠ t.hash := by
    intro t' behind same
    rw [List.map_append, List.map_cons] at hashes
    exact (List.nodup_cons.mp (List.nodup_append.mp hashes).2.1).1 (same ▸ List.mem_map_of_mem behind)
  have kept (script : List UInt8) : back.foldl (fun script utxos =>
      (utxos.find txin.getPreviousOutputHash txin.getPreviousOutputIndex).getD script) script = script := by
    clear hashes indexes member listed
    induction back with
    | nil => rfl
    | cons t' back ih =>
      have other : t'.find txin.getPreviousOutputHash txin.getPreviousOutputIndex = none :=
        if_pos (hash ▸ later t' (by simp))
      rw [List.foldl_cons, other]
      exact ih fun t' behind => later t' (by simp [behind])
  rw [scriptToSign, List.foldl_append, List.foldl_cons, kept, hash, index]
  show (t.find t.hash utxo.2).getD _ = _
  rw [UtxoTuple.find_of_mem (indexes t (by simp)) here]
  rfl

theorem held_outpoint_injective {utxosToSpend : List UtxoTuple}
    (hashes : (utxosToSpend.map UtxoTuple.hash).Nodup)
    (indexes : ∀ t ∈ utxosToSpend, (t.utxoSet.map Prod.snd).Nodup) {held other : Hash × TxOut × Nat}
    (member : held ∈ holdings utxosToSpend) (listed : other ∈ holdings utxosToSpend)
    (same : heldOutpoint other = heldOutpoint held) : other = held :=
  List.inj_on_of_nodup_map (holdings_outpoints_nodup hashes indexes) listed member same

section Sign

variable [WalletCrates]

namespace Transaction

/-- The inputs of an unsigned transaction are the outputs that are spent, in their order. -/
theorem generate_unsigned_inputs {addressReceiver changeAdress : String} {value fee : Int64}
    {utxosToSpend : List UtxoTuple} {tx : Transaction}
    (generated : generateUnsignedTransaction addressReceiver changeAdress value fee utxosToSpend =
      .ok tx) : tx.txIn = (holdings utxosToSpend).map (TxIn.carrying · []) := by
  obtain ⟨_, _, _, _, _, _, _, _, _, _, rfl⟩ := generate_unsigned_steps generated
  rfl

theorem generate_message_to_sign_eq {tx : Transaction} {utxosToSpend : List UtxoTuple}
    (hashes : (utxosToSpend.map UtxoTuple.hash).Nodup)
    (indexes : ∀ t ∈ utxosToSpend, (t.utxoSet.map Prod.snd).Nodup)
    (small : ∀ held ∈ holdings utxosToSpend, held.2.2 < 2 ^ 32)
    (inputs : tx.txIn = (holdings utxosToSpend).map (TxIn.carrying · [])) (i : Nat) :
    tx.generateMessageToSign i utxosToSpend =
      Crates.sha256 ((tx.signingCopy utxosToSpend i).marshalling ++ [1, 0, 0, 0]) := by
  have copy : tx.txIn.modify i (fun input => input.add ⟨scriptToSign input utxosToSpend⟩) =
      (tx.signingCopy utxosToSpend i).txIn := by
    rw [inputs, signingCopy]
    apply List.ext_getElem
    · simp
    intro j before after
    rw [List.length_modify, List.length_map] at before
    have member := List.getElem_mem before
    rw [List.getElem_modify, List.getElem_map, List.getElem_mapIdx]
    by_cases here : i = j
    · subst here
      have script := script_to_sign_eq hashes indexes member
        (TxIn.names_carrying (small _ member) [])
      rw [if_pos rfl, if_pos rfl, script]
      rfl
    · rw [if_neg here, if_neg (Ne.symm here)]
  have bytes : u32ToLeBytes 1 = [1, 0, 0, 0] := by decide
  have message : tx.generateMessageToSign i utxosToSpend = Crates.sha256 ({ tx with
      txIn := tx.txIn.modify i fun input => input.add ⟨scriptToSign input utxosToSpend⟩ }.marshalling ++
        u32ToLeBytes 1) := rfl
  rw [message, copy, bytes]
  rfl

/-- Each input is signed with the message for its own position, from the unsigned transaction. -/
theorem sign_inputs {tx signed : Transaction} {account : SpendingAccount}
    {utxosToSpend : List UtxoTuple} (inputs : tx.txIn = (holdings utxosToSpend).map (TxIn.carrying · []))
    (signs : tx.sign account utxosToSpend = .ok signed) {i : Nat} {held : Hash × TxOut × Nat}
    (here : (holdings utxosToSpend)[i]? = some held) :
    ∃ script, SigScript.generateSigScript (tx.generateMessageToSign i utxosToSpend) account =
        .ok script ∧ signed.txIn[i]? = some (TxIn.carrying held script.bytes) := by
  obtain ⟨signatures, mapped, same⟩ := Outcome.bind_eq_ok.mp signs
  have bound : i < tx.txIn.length := by
    rw [inputs, List.length_map]
    exact (List.getElem?_eq_some_iff.mp here).1
  obtain ⟨script, stored, generated⟩ := Outcome.mapM_getElem mapped (List.getElem?_range bound)
  refine ⟨script, generated, ?_⟩
  cases same
  rw [List.getElem?_zipWith, inputs, List.getElem?_map, here, stored]
  rfl

/-- The inputs are the outputs to spend, in their order. Input `i` names an output, the only one under that
outpoint; the script that is put in for the message and the script that the signature is checked against are both
the script of that output. The message is the transaction with that script at that input, and no other script. An
account that all the scripts pay signs, and its signatures pass the check. -/
theorem signing_aligned {addressReceiver changeAdress : String} {value fee : Int64}
    {utxosToSpend : List UtxoTuple} {tx : Transaction}
    (hashes : (utxosToSpend.map UtxoTuple.hash).Nodup)
    (indexes : ∀ t ∈ utxosToSpend, (t.utxoSet.map Prod.snd).Nodup)
    (small : ∀ held ∈ holdings utxosToSpend, held.2.2 < 2 ^ 32)
    (generated : generateUnsignedTransaction addressReceiver changeAdress value fee utxosToSpend =
      .ok tx) :
    tx.txIn.map TxIn.names = (holdings utxosToSpend).map heldOutpoint ∧
    (∀ i txin, tx.txIn[i]? = some txin → ∃ held ∈ holdings utxosToSpend,
      (∀ other ∈ holdings utxosToSpend, heldOutpoint other = txin.names ↔ other = held) ∧
      scriptToSign txin utxosToSpend = held.2.1.pkScript.bytes ∧
      (p2pkhScripts utxosToSpend)[i]? = some held.2.1.pkScript.bytes ∧
      tx.generateMessageToSign i utxosToSpend =
        Crates.sha256 ((tx.signingCopy utxosToSpend i).marshalling ++ [1, 0, 0, 0]) ∧
      ∀ account signed, tx.sign account utxosToSpend = .ok signed →
        ∃ script, SigScript.generateSigScript (Crates.sha256
            ((tx.signingCopy utxosToSpend i).marshalling ++ [1, 0, 0, 0])) account = .ok script ∧
          signed.txIn[i]? = some (TxIn.carrying held script.bytes)) ∧
    (WalletCrates.Lawful → ∀ wifPrivateKey address made account,
      SpendingAccount.new wifPrivateKey address = .ok made → account.privateKey = made.privateKey →
      (∀ held ∈ holdings utxosToSpend, generatePubkeyScript made.address = .ok held.2.1.pkScript.bytes) →
      ∃ signed, tx.sign account utxosToSpend = .ok signed ∧ signed.validate utxosToSpend = .ok ()) := by
  have inputs := generate_unsigned_inputs generated
  refine ⟨?_, ?_, ?_⟩
  · rw [inputs, List.map_map]
    exact List.map_congr_left fun held member => TxIn.names_carrying (small held member) []
  · intro i txin here
    rw [inputs, List.getElem?_map, Option.map_eq_some_iff] at here
    obtain ⟨held, here, rfl⟩ := here
    have member := List.mem_of_getElem? here
    have names := TxIn.names_carrying (small held member) []
    have message := generate_message_to_sign_eq hashes indexes small inputs i
    refine ⟨held, member, fun other listed => ?_, script_to_sign_eq hashes indexes member names, ?_,
      message, fun account signed signs => ?_⟩
    · rw [names]
      exact ⟨held_outpoint_injective hashes indexes member listed, fun same => same ▸ rfl⟩
    · rw [p2pkh_scripts_eq, List.getElem?_map, here]
      rfl
    · rw [← message]
      exact sign_inputs inputs signs here
  · intro lawful wifPrivateKey address made account new_account key scripts
    obtain ⟨rawKey, publicKey, decoded, derived, madeAddress⟩ :=
      SpendingAccount.new_eq_ok lawful new_account
    rw [← key] at decoded
    obtain ⟨signed, signs, length, unlocked⟩ := sign_ok lawful decoded derived tx utxosToSpend
    have pays : ∀ held ∈ holdings utxosToSpend,
        PaysToPubkeyHash held.2.1.pkScript.bytes (hash160 publicKey.val) := by
      intro held member
      have script := scripts held member
      rw [madeAddress, generatePubkeyScript, get_pubkey_hash_from_testnet_address lawful] at script
      exact ⟨20, (Except.ok.inj script).symm⟩
    rw [inputs, List.length_map] at length
    refine ⟨signed, signs, (validate_iff length unlocked fun held member => ?_).mpr pays⟩
    obtain ⟨push, script⟩ := pays held member
    exact .inr ⟨opHash160, push, opEqualverify, opChecksig, script⟩

end Transaction

end Sign

/-- Five inputs from two tuples, signed by the key that they pay. -/
theorem Transaction.signing_aligned_coins :
    let _ := OneKey.crates
    let utxosToSpend := OneKey.coins.utxoSet
    ∃ tx : Transaction, generateUnsignedTransaction (testnetAddress OneKey.receiverHash)
        (testnetAddress OneKey.pubkeyHash) 5 3 utxosToSpend = .ok tx ∧
      tx.txIn.map TxIn.names = (holdings utxosToSpend).map heldOutpoint ∧
      (∀ (i : Nat) txin, tx.txIn[i]? = some txin → scriptToSign txin utxosToSpend = OneKey.p2pkh ∧
        (p2pkhScripts utxosToSpend)[i]? = some OneKey.p2pkh ∧
        tx.generateMessageToSign i utxosToSpend =
          Crates.sha256 ((tx.signingCopy utxosToSpend i).marshalling ++ [1, 0, 0, 0])) ∧
      ∃ signed, tx.sign (OneKey.account OneKey.p2pkh) utxosToSpend = .ok signed ∧
        signed.validate utxosToSpend = .ok () := by
  intro crates utxosToSpend
  obtain ⟨tx, generated, _⟩ := @Transaction.generate_unsigned_ok crates OneKey.crates_lawful
    OneKey.coins.utxoSet 5 3 8 18 OneKey.receiverHash OneKey.pubkeyHash (by decide) (by decide)
    (by decide) (by decide)
  have script : generatePubkeyScript OneKey.address = .ok OneKey.p2pkh := by decide +kernel
  have scripts : ∀ held ∈ holdings OneKey.coins.utxoSet, held.2.1.pkScript.bytes = OneKey.p2pkh := by decide
  obtain ⟨names, inputs, signing⟩ := signing_aligned (by decide) (by decide) (by decide) generated
  refine ⟨tx, generated, names, fun i txin here => ?_, ?_⟩
  · obtain ⟨held, member, _, signed, checked, message, _⟩ := inputs i txin here
    rw [scripts held member] at signed checked
    exact ⟨signed, checked, message⟩
  · exact signing OneKey.crates_lawful _ _ _ (OneKey.account OneKey.p2pkh) (OneKey.new_account OneKey.p2pkh)
      rfl fun held member => by rw [scripts held member]; exact script

end BitcoinNode
