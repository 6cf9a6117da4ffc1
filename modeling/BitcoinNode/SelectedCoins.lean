import BitcoinNode.MoneyConserved
import BitcoinNode.SpendableOutputs

/-! Coin selection as a whole: what is selected is a front part of the account's outputs that
reaches the amount, and would not exceed it without its last output. -/
namespace BitcoinNode

/-- The outpoint of a held output, with its index as the account has it. -/
def heldOutpoint (held : Hash × TxOut × Nat) : Hash × Nat := (held.1, held.2.2)

def total (held : List (Hash × TxOut × Nat)) : Int := (held.map (·.2.1.value.toInt)).sum

@[simp] theorem total_nil : total [] = 0 := rfl

@[simp] theorem total_cons (first : Hash × TxOut × Nat) (held : List (Hash × TxOut × Nat)) :
    total (first :: held) = first.2.1.value.toInt + total held := by
  simp [total]

@[simp] theorem total_append (held more : List (Hash × TxOut × Nat)) :
    total (held ++ more) = total held + total more := by
  simp [total]

@[simp] theorem holdings_cons (t : UtxoTuple) (utxos : List UtxoTuple) :
    holdings (t :: utxos) = t.utxoSet.map (fun utxo => (t.hash, utxo)) ++ holdings utxos := rfl

theorem total_tuple (t : UtxoTuple) : total (t.utxoSet.map fun utxo => (t.hash, utxo)) = t.worth := by
  simp [total, UtxoTuple.worth, Function.comp_def]

theorem total_dropLast_le (held : List (Hash × TxOut × Nat)) (nonneg : ∀ h ∈ held, 0 ≤ h.2.1.value.toInt) :
    total held.dropLast ≤ total held := by
  rcases List.eq_nil_or_concat held with rfl | ⟨front, last, rfl⟩
  · exact Int.le_refl _
  · have here := nonneg last (by simp)
    simp only [List.concat_eq_append, List.dropLast_concat, total_append, total_cons, total_nil]
    omega

theorem holdings_outpoints_nodup {utxos : List UtxoTuple} (hashes : (utxos.map UtxoTuple.hash).Nodup)
    (indexes : ∀ t ∈ utxos, (t.utxoSet.map Prod.snd).Nodup) :
    ((holdings utxos).map heldOutpoint).Nodup := by
  induction utxos with
  | nil => exact List.nodup_nil
  | cons t rest ih =>
    obtain ⟨apart, others⟩ := List.nodup_cons.mp hashes
    rw [holdings_cons, List.map_append, List.nodup_append]
    refine ⟨?_, ih others fun t member => indexes t (by simp [member]), ?_⟩
    · have own := indexes t (by simp)
      rw [List.map_map]
      exact List.Nodup.of_map Prod.snd (by simpa [Function.comp_def, heldOutpoint] using own)
    · rintro _ here _ there rfl
      simp only [List.map_map, List.mem_map, Function.comp_apply, heldOutpoint] at here
      obtain ⟨utxo, _, same⟩ := here
      simp only [holdings, List.mem_map, List.mem_flatMap, heldOutpoint] at there
      obtain ⟨_, ⟨t', member, utxo', _, rfl⟩, same'⟩ := there
      have hash : t'.hash = t.hash := congrArg Prod.fst (same'.trans same.symm)
      exact apart (hash ▸ List.mem_map_of_mem member)

theorem holdings_selection_initial (value raised : Int) (utxos : List UtxoTuple) :
    holdings (selection value raised utxos) <+: holdings utxos := by
  induction utxos generalizing raised with
  | nil => exact List.prefix_rfl
  | cons t rest ih =>
    rw [selection]
    split_ifs
    · rw [holdings_cons, holdings_cons]
      exact (List.prefix_append_right_inj _).mpr (ih _)
    · rw [holdings_cons, holdings_cons]
      have front := (selected_outputs_initial value raised t.utxoSet).map fun utxo => (t.hash, utxo)
      simpa [holdings] using front.trans (List.prefix_append _ _)

theorem selected_outputs_last {value raised : Int} (below : raised ≤ value) (hash : Hash)
    (outputs : List (TxOut × Nat)) :
    raised + total ((selectedOutputs value raised outputs).map fun utxo => (hash, utxo)).dropLast ≤ value := by
  induction outputs generalizing raised with
  | nil => simpa [selectedOutputs] using below
  | cons utxo rest ih =>
    rw [selectedOutputs]
    split_ifs with exceeded
    · simpa using below
    · have later := ih (Int.not_lt.mp exceeded)
      rcases taken : selectedOutputs value (raised + utxo.1.value.toInt) rest with _ | ⟨next, others⟩
      · simpa using below
      · rw [taken] at later
        rw [List.map_cons, List.dropLast_cons_of_ne_nil (by simp), total_cons]
        have here : (hash, utxo).2.1.value.toInt = utxo.1.value.toInt := rfl
        omega

theorem selection_last {value raised : Int} (below : raised < value) {utxos : List UtxoTuple}
    (nonneg : ∀ held ∈ holdings utxos, 0 ≤ held.2.1.value.toInt) :
    raised + total (holdings (selection value raised utxos)).dropLast ≤ value := by
  induction utxos generalizing raised with
  | nil => simpa [selection, holdings] using Int.le_of_lt below
  | cons t rest ih =>
    rw [selection]
    split_ifs with short
    · have later := ih short fun held member => nonneg held (by simp [member])
      have whole := total_tuple t
      rw [holdings_cons]
      rcases taken : holdings (selection value (raised + t.worth) rest) with _ | ⟨next, others⟩
      · have less := total_dropLast_le (t.utxoSet.map fun utxo => (t.hash, utxo))
          fun held member => nonneg held (by rw [holdings_cons]; exact List.mem_append_left _ member)
        rw [List.append_nil]
        omega
      · rw [taken] at later
        rw [List.dropLast_append_cons, total_append]
        omega
    · have inside := selected_outputs_last (Int.le_of_lt below) t.hash t.utxoSet
      simpa [holdings] using inside

section Selection

variable [WalletCrates]

namespace SpendingAccount

/-- Nothing of the account is written. -/
def getUtxosForAmount (value : Int64) : Proc SpendingAccount Empty (List UtxoTuple) := do
  let account ← Proc.get
  Proc.lift (BitcoinNode.getUtxosForAmount value account.utxoSet 0)

/-- Where the balance exceeds the amount, the selection is a front part of the account's outputs in
order and without repetition, it reaches the amount, without its last output it does not exceed it,
and the change of a payment of that amount is not negative. -/
theorem get_utxos_for_amount_selects {account : SpendingAccount} {value : Int64}
    (nonneg : ∀ held ∈ holdings account.utxoSet, 0 ≤ held.2.1.value.toInt)
    (hashes : (account.utxoSet.map UtxoTuple.hash).Nodup)
    (indexes : ∀ t ∈ account.utxoSet, (t.utxoSet.map Prod.snd).Nodup) (positive : 0 < value)
    (enough : account.hasBalance value = .ok true) :
    ∃ taken, (getUtxosForAmount value).run account = (.ok taken, account) ∧
      holdings taken <+: holdings account.utxoSet ∧ ((holdings taken).map heldOutpoint).Nodup ∧
      value.toInt ≤ total (holdings taken) ∧ total (holdings taken).dropLast ≤ value.toInt ∧
      ∀ amount fee addressReceiver changeAdress tx, checkedAdd amount fee = .ok value →
        Transaction.generateUnsignedTransaction addressReceiver changeAdress amount fee taken = .ok tx →
        ∃ paid change, tx.txOut = [paid, change] ∧ 0 ≤ change.value.toInt := by
  obtain ⟨balance, summed, exceeded⟩ := Outcome.bind_eq_ok.mp enough
  have exceeds := Int64.lt_iff_toInt_lt.mp (of_decide_eq_true (Except.ok.inj exceeded))
  have worth := balances_eq_ok summed
  have above := Int64.lt_iff_toInt_lt.mp positive
  rw [Int64.toInt_zero] at above worth
  have fits := last_additions_fits value summed fun t member utxo inside =>
    nonneg (t.hash, utxo) (List.mem_flatMap.mpr ⟨t, member, List.mem_map_of_mem inside⟩)
  obtain ⟨taken, selected⟩ := (get_utxos_for_amount_iff value summed).mpr fits
  have takenEq := get_utxos_for_amount_eq_ok selected
  rw [Int64.toInt_zero] at takenEq
  have front := holdings_selection_initial value.toInt 0 account.utxoSet
  have reached := selection_enough value.toInt 0 account.utxoSet (by omega)
  have last := selection_last above nonneg
  rw [← takenEq] at front reached last
  have nodup := (front.map heldOutpoint).sublist.nodup (holdings_outpoints_nodup hashes indexes)
  have totalEq : total (holdings taken) = (taken.map UtxoTuple.worth).sum := sum_holdings taken
  refine ⟨taken, ?_, front, nodup, by omega, by omega, ?_⟩
  · rw [getUtxosForAmount, Proc.run_bind_ok _ (Proc.run_get account), Proc.run_lift, selected]
  · intro amount fee addressReceiver changeAdress tx added generated
    obtain ⟨_, values⟩ := Transaction.generate_unsigned_eq_ok generated
    rw [← checked_add_eq_ok added] at values
    rcases outputs : tx.txOut with _ | ⟨paid, _ | ⟨change, _ | _⟩⟩ <;> rw [outputs] at values
    · simp at values
    · simp at values
    · refine ⟨paid, change, rfl, ?_⟩
      have changeEq : change.value.toInt = (taken.map UtxoTuple.worth).sum - value.toInt := by
        simpa using (List.cons.inj (List.cons.inj values).2).1
      omega
    · simp at values

end SpendingAccount

end Selection

/-- Two tuples; the second one has an output without value. -/
def OneKey.coins : SpendingAccount :=
  ⟨⟨OneKey.address, [⟨U8Array.replicate 32 1, [(TxOut.new 3 OneKey.p2pkh, 0), (TxOut.new 4 OneKey.p2pkh, 2)]⟩,
    ⟨U8Array.replicate 32 2, [(TxOut.new 0 OneKey.p2pkh, 0), (TxOut.new 5 OneKey.p2pkh, 1),
      (TxOut.new 6 OneKey.p2pkh, 3)]⟩], [], []⟩, ""⟩

theorem SpendingAccount.get_utxos_for_amount_selects_coins :
    let _ := OneKey.crates
    ∃ taken, (getUtxosForAmount 8).run OneKey.coins = (.ok taken, OneKey.coins) ∧
      holdings taken <+: holdings OneKey.coins.utxoSet ∧ ((holdings taken).map heldOutpoint).Nodup ∧
      (8 : Int64).toInt ≤ total (holdings taken) ∧ total (holdings taken).dropLast ≤ (8 : Int64).toInt ∧
      ∀ amount fee addressReceiver changeAdress tx, checkedAdd amount fee = .ok 8 →
        Transaction.generateUnsignedTransaction addressReceiver changeAdress amount fee taken = .ok tx →
        ∃ paid change, tx.txOut = [paid, change] ∧ 0 ≤ change.value.toInt := by
  intro _
  exact get_utxos_for_amount_selects (by decide) (by decide) (by decide) (by decide) (by decide)

end BitcoinNode
