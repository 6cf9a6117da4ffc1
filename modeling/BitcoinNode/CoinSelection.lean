import BitcoinNode.Payments

/-! Which outputs a payment spends, without the overflow checks: whole tuples while they do not
reach the amount, then outputs of the next one until the amount is exceeded. -/
namespace BitcoinNode

def selectedOutputs (value : Int) : (raised : Int) → List (TxOut × Nat) → List (TxOut × Nat)
  | _, [] => []
  | raised, utxo :: rest =>
    let raised := raised + utxo.1.value.toInt
    utxo :: if value < raised then [] else selectedOutputs value raised rest

def selection (value : Int) : (raised : Int) → List UtxoTuple → List UtxoTuple
  | _, [] => []
  | raised, t :: rest =>
    if raised + t.worth < value then t :: selection value (raised + t.worth) rest
    else [⟨t.hash, selectedOutputs value raised t.utxoSet⟩]

theorem checked_sub_eq {a b : Int64} (low : -2 ^ 63 ≤ a.toInt - b.toInt)
    (high : a.toInt - b.toInt < 2 ^ 63) :
    ∃ c, checkedSub a b = .ok c ∧ c.toInt = a.toInt - b.toInt := by
  refine ⟨a - b, if_pos ⟨low, high⟩, ?_⟩
  rw [Int64.toInt_sub]
  exact Int.bmod_eq_of_le (by simpa using low) (by simpa using high)

theorem checked_sub_eq_ok {a b c : Int64} (subtracted : checkedSub a b = .ok c) :
    c.toInt = a.toInt - b.toInt := by
  rw [checkedSub] at subtracted
  split_ifs at subtracted with fits
  · obtain ⟨c', same, value⟩ := checked_sub_eq fits.1 fits.2
    rw [checkedSub, if_pos fits, subtracted] at same
    rw [Except.ok.inj same, value]
  · cases subtracted

theorem foldlM_checked_add_eq_ok {α : Type} {xs : List α} {value : α → Checked Int64} (worth : α → Int)
    (each : ∀ x ∈ xs, ∀ v, value x = .ok v → v.toInt = worth x) {start total : Int64}
    (summed : xs.foldlM (fun balance x => do checkedAdd balance (← value x)) start = .ok total) :
    total.toInt = start.toInt + (xs.map worth).sum := by
  induction xs generalizing start with
  | nil =>
    cases summed
    simp
  | cons x rest ih =>
    obtain ⟨first, others⟩ := List.forall_mem_cons.mp each
    rw [List.foldlM_cons] at summed
    obtain ⟨balance, added, summed⟩ := Outcome.bind_eq_ok.mp summed
    obtain ⟨v, evaluated, added⟩ := Outcome.bind_eq_ok.mp added
    rw [ih others summed, checked_add_eq_ok added, first v evaluated, List.map_cons, List.sum_cons]
    omega

theorem UtxoTuple.balance_eq_ok {t : UtxoTuple} {total : Int64} (balance : t.balance = .ok total) :
    total.toInt = t.worth := by
  have sum := foldlM_checked_add_eq_ok (·.1.value.toInt) (fun utxo _ v same => by
    rw [← Except.ok.inj same]) balance
  simpa [worth] using sum

theorem balances_eq_ok {utxos : List UtxoTuple} {start total : Int64}
    (summed : utxos.foldlM (fun balance t => do checkedAdd balance (← t.balance)) start = .ok total) :
    total.toInt = start.toInt + (utxos.map UtxoTuple.worth).sum :=
  foldlM_checked_add_eq_ok UtxoTuple.worth (fun _ _ _ same => UtxoTuple.balance_eq_ok same) summed

theorem UtxoTuple.utxos_to_spend_eq_ok {value : Int64} {outputs taken : List (TxOut × Nat)}
    {raised : Int64} (spent : utxosToSpend value outputs raised = .ok taken) :
    taken = selectedOutputs value.toInt raised.toInt outputs := by
  induction outputs generalizing raised taken with
  | nil => exact (Except.ok.inj spent).symm
  | cons utxo rest ih =>
    obtain ⟨raised', added, spent⟩ := Outcome.bind_eq_ok.mp spent
    rw [selectedOutputs, ← checked_add_eq_ok added]
    by_cases enough : value < raised'
    · rw [if_pos enough] at spent
      rw [if_pos (Int64.lt_iff_toInt_lt.mp enough)]
      exact (Except.ok.inj spent).symm
    · rw [if_neg enough] at spent
      obtain ⟨others, later, same⟩ := Outcome.bind_eq_ok.mp spent
      rw [if_neg fun more => enough (Int64.lt_iff_toInt_lt.mpr more), ← ih later]
      exact (Except.ok.inj same).symm

theorem get_utxos_for_amount_eq_ok {value : Int64} {utxos taken : List UtxoTuple} {raised : Int64}
    (spent : getUtxosForAmount value utxos raised = .ok taken) :
    taken = selection value.toInt raised.toInt utxos := by
  induction utxos generalizing raised taken with
  | nil => exact (Except.ok.inj spent).symm
  | cons t rest ih =>
    obtain ⟨balance, summed, spent⟩ := Outcome.bind_eq_ok.mp spent
    obtain ⟨amount, added, spent⟩ := Outcome.bind_eq_ok.mp spent
    rw [selection, ← UtxoTuple.balance_eq_ok summed, ← checked_add_eq_ok added]
    by_cases short : amount < value
    · rw [if_pos short] at spent
      obtain ⟨others, later, same⟩ := Outcome.bind_eq_ok.mp spent
      rw [if_pos (Int64.lt_iff_toInt_lt.mp short), ← ih later]
      exact (Except.ok.inj same).symm
    · rw [if_neg short] at spent
      obtain ⟨outputs, later, same⟩ := Outcome.bind_eq_ok.mp spent
      rw [if_neg fun less => short (Int64.lt_iff_toInt_lt.mpr less),
        ← UtxoTuple.utxos_to_spend_eq_ok later]
      exact (Except.ok.inj same).symm

theorem selected_outputs_initial (value raised : Int) (outputs : List (TxOut × Nat)) :
    selectedOutputs value raised outputs <+: outputs := by
  induction outputs generalizing raised with
  | nil => exact List.prefix_rfl
  | cons utxo rest ih =>
    rw [selectedOutputs]
    split_ifs
    · exact List.cons_prefix_cons.mpr ⟨rfl, List.nil_prefix⟩
    · exact List.cons_prefix_cons.mpr ⟨rfl, ih _⟩

theorem holdings_selection_sublist (value raised : Int) (utxos : List UtxoTuple) :
    (holdings (selection value raised utxos)).Sublist (holdings utxos) := by
  induction utxos generalizing raised with
  | nil => exact List.Sublist.refl _
  | cons t rest ih =>
    rw [selection]
    split_ifs
    · rw [holdings, List.flatMap_cons, holdings, List.flatMap_cons]
      exact (List.Sublist.refl _).append (ih _)
    · rw [holdings, List.flatMap_cons, holdings, List.flatMap_cons, List.flatMap_nil, List.append_nil]
      exact ((selected_outputs_initial value raised t.utxoSet).sublist.map _).trans
        (List.sublist_append_left _ _)

theorem selected_outputs_enough (value raised : Int) (outputs : List (TxOut × Nat)) :
    value < raised + ((selectedOutputs value raised outputs).map (·.1.value.toInt)).sum ∨
      selectedOutputs value raised outputs = outputs := by
  induction outputs generalizing raised with
  | nil => exact .inr rfl
  | cons utxo rest ih =>
    rw [selectedOutputs]
    split_ifs with enough
    · exact .inl (by simpa using enough)
    · rcases ih (raised + utxo.1.value.toInt) with more | all
      · left
        rw [List.map_cons, List.sum_cons]
        omega
      · exact .inr (congrArg (utxo :: ·) all)

theorem selection_enough (value raised : Int) (utxos : List UtxoTuple)
    (enough : value < raised + (utxos.map UtxoTuple.worth).sum) :
    value ≤ raised + ((selection value raised utxos).map UtxoTuple.worth).sum := by
  induction utxos generalizing raised with
  | nil => exact Int.le_of_lt enough
  | cons t rest ih =>
    rw [List.map_cons, List.sum_cons] at enough
    rw [selection]
    split_ifs with short
    · have later := ih (raised + t.worth) (by omega)
      rw [List.map_cons, List.sum_cons]
      omega
    · rw [List.map_singleton, List.sum_singleton, UtxoTuple.worth]
      rcases selected_outputs_enough value raised t.utxoSet with more | all
      · exact Int.le_of_lt more
      · rw [all]
        exact Int.not_lt.mp short

end BitcoinNode
