import BitcoinNode.Balances
import BitcoinNode.UnreadableScripts

/-! The list of the transactions of an account. What each of them spends is read off its outputs, and one
output without an address fails the whole list; where the utxos of an account are looked for, such an
output is skipped. -/
namespace BitcoinNode

section Lists

variable [Crates]

def TxOut.isSentToAccount (t : TxOut) (address : String) : Outcome String Bool := do
  let txAsociateAddress ← t.getAddress
  return txAsociateAddress == address

def addSpent (address : String) (amount : Int64) (txout : TxOut) : Outcome String Int64 := do
  if !(← txout.isSentToAccount address) then Outcome.widen (checkedAdd amount txout.value)
  else return amount

def Transaction.amountSpentByAccount (tx : Transaction) (address : String) : Outcome String Int64 :=
  tx.txOut.foldlM (addSpent address) 0

/-- What is pending comes first. The locks of the two lists are not poisoned. -/
def Account.getTransactions (account : Account) : Outcome String (List (String × Transaction × Int64)) := do
  let pending ← account.pendingTransactions.mapM fun tx => do
    return ("Pending", tx, ← tx.amountSpentByAccount account.address)
  let confirmed ← account.confirmedTransactions.mapM fun tx => do
    return ("Confirmed", tx, ← tx.amountSpentByAccount account.address)
  return pending ++ confirmed

/-- The outputs that do not pay the address. One without an address does not pay it. -/
def sentElsewhere (outs : List TxOut) (address : String) : List TxOut :=
  outs.filter fun out => decide (out.getAddress ≠ .ok address)

/-- One entry for each transaction, with what it sends to others. -/
def Account.entries (account : Account) : List (String × Transaction × Int) :=
  let entry (state : String) (tx : Transaction) :=
    (state, tx, ((sentElsewhere tx.txOut account.address).map (·.value.toInt)).sum)
  account.pendingTransactions.map (entry "Pending") ++ account.confirmedTransactions.map (entry "Confirmed")

def Account.Listed (account : Account) : Prop :=
  ∃ infos, account.getTransactions = .ok infos ∧
    infos.map (fun info => (info.1, info.2.1, info.2.2.toInt)) = account.entries

omit [Crates] in
/-- A script of at least four bytes; if it has four, it does not start like a P2PKH script. -/
def TxOut.Addressed (out : TxOut) : Prop := 4 ≤ out.pkScript.bytes.length ∧ ¬out.pkScript.Stub

/-- Every output has an address, and the values that are added up stay in their range. -/
def Transaction.Summable (tx : Transaction) (address : String) : Prop :=
  (∀ out ∈ tx.txOut, out.Addressed) ∧ Fits ((sentElsewhere tx.txOut address).map (·.value.toInt))

theorem get_address_not_err {out : TxOut} (long : 4 ≤ out.pkScript.bytes.length) {text : String} :
    out.getAddress ≠ Outcome.fail text := by
  rw [TxOut.getAddress, Pubkey.generateAddress, if_neg (by omega), Outcome.index_of_lt _ _ (by omega), Outcome.bind_ok]
  split_ifs <;> exact fun failed => by cases failed

theorem TxOut.addressed_iff {out : TxOut} : out.Addressed ↔ ∃ address, out.getAddress = .ok address := by
  by_cases short : out.pkScript.bytes.length ≤ 3
  · refine iff_of_false (fun addressed => ?_) ?_
    · have long := addressed.1
      omega
    · rintro ⟨address, found⟩
      rw [getAddress, Pubkey.generateAddress, if_pos short] at found
      cases found
  · have long : 4 ≤ out.pkScript.bytes.length := by omega
    rw [Addressed, and_iff_right long, ← readable_iff, Readable]
    constructor
    · intro readable
      rcases read : out.getAddress with e | address
      · obtain ⟨text, rfl⟩ := get_address_failure read readable
        exact absurd read (get_address_not_err long)
      · exact ⟨address, rfl⟩
    · rintro ⟨address, found⟩ panics
      rw [found] at panics
      cases panics

/-- One output more: it has to have an address, and is counted if that is not the address of the account. -/
theorem add_spent_eq_ok {out : TxOut} {address : String} {amount sum : Int64} :
    addSpent address amount out = .ok sum ↔ out.Addressed ∧
      if out.getAddress = .ok address then amount = sum else checkedAdd amount out.value = .ok sum := by
  rw [TxOut.addressed_iff, addSpent, TxOut.isSentToAccount]
  rcases read : out.getAddress with e | found
  · refine iff_of_false (fun stepped => ?_) fun addressed => ?_
    · cases stepped
    · cases addressed.1.choose_spec
  · rw [and_iff_right ⟨found, rfl⟩, Outcome.bind_ok, pure_bind]
    by_cases own : found = address
    · simp [own]
    · simp [own, Outcome.widen_eq_ok]

theorem amount_spent_eq_ok {outs : List TxOut} {address : String} {start amount : Int64}
    (spent : outs.foldlM (addSpent address) start = .ok amount) :
    (∀ out ∈ outs, out.Addressed) ∧ Fits (start.toInt :: (sentElsewhere outs address).map (·.value.toInt)) ∧
      amount.toInt = start.toInt + ((sentElsewhere outs address).map (·.value.toInt)).sum := by
  induction outs generalizing start with
  | nil =>
    obtain rfl := Except.ok.inj spent
    exact ⟨fun _ member => absurd member List.not_mem_nil, fits_singleton.mpr ⟨start.le_toInt, start.toInt_lt⟩,
      (Int.add_zero _).symm⟩
  | cons out outs ih =>
    rw [List.foldlM_cons] at spent
    obtain ⟨sum, stepped, spent⟩ := Outcome.bind_eq_ok.mp spent
    obtain ⟨addressed, added⟩ := add_spent_eq_ok.mp stepped
    obtain ⟨others, fits, total⟩ := ih spent
    refine ⟨List.forall_mem_cons.mpr ⟨addressed, others⟩, ?_⟩
    by_cases own : out.getAddress = .ok address
    · rw [if_pos own] at added
      rw [sentElsewhere, List.filter_cons_of_neg (by simpa using own), added]
      exact ⟨fits, total⟩
    · rw [if_neg own] at added
      rw [sentElsewhere, List.filter_cons_of_pos (by simpa using own), List.map_cons, fits_cons_cons, List.sum_cons,
        ← Int.add_assoc, ← checked_add_eq_ok added]
      exact ⟨⟨⟨start.le_toInt, start.toInt_lt⟩, fits⟩, total⟩

theorem amount_spent_eq {outs : List TxOut} {address : String} {start : Int64}
    (addressed : ∀ out ∈ outs, out.Addressed)
    (fits : Fits (start.toInt :: (sentElsewhere outs address).map (·.value.toInt))) :
    ∃ amount, outs.foldlM (addSpent address) start = .ok amount := by
  induction outs generalizing start with
  | nil => exact ⟨start, rfl⟩
  | cons out outs ih =>
    obtain ⟨first, others⟩ := List.forall_mem_cons.mp addressed
    suffices stepped : ∃ sum, (if out.getAddress = .ok address then start = sum else
        checkedAdd start out.value = .ok sum) ∧
        Fits (sum.toInt :: (sentElsewhere outs address).map (·.value.toInt)) by
      obtain ⟨sum, added, fits⟩ := stepped
      obtain ⟨amount, spent⟩ := ih others fits
      exact ⟨amount, Outcome.bind_eq_ok.mpr ⟨sum, add_spent_eq_ok.mpr ⟨first, added⟩, spent⟩⟩
    by_cases own : out.getAddress = .ok address
    · rw [sentElsewhere, List.filter_cons_of_neg (by simpa using own)] at fits
      exact ⟨start, by rw [if_pos own], fits⟩
    · rw [sentElsewhere, List.filter_cons_of_pos (by simpa using own), List.map_cons, fits_cons_cons] at fits
      have inside := fits_singleton.mp (fits.2.initial ⟨(sentElsewhere outs address).map (·.value.toInt), rfl⟩)
      obtain ⟨sum, added, sum_eq⟩ := checked_add_eq inside.1 inside.2
      exact ⟨sum, by rwa [if_neg own], by rw [sum_eq]; exact fits.2⟩

theorem Transaction.amount_spent_iff {tx : Transaction} {address : String} :
    (∃ amount, tx.amountSpentByAccount address = .ok amount ∧
      amount.toInt = ((sentElsewhere tx.txOut address).map (·.value.toInt)).sum) ↔ tx.Summable address := by
  constructor
  · rintro ⟨amount, spent, _⟩
    obtain ⟨addressed, fits, _⟩ := amount_spent_eq_ok spent
    exact ⟨addressed, fits_zero_cons.mp fits⟩
  · rintro ⟨addressed, fits⟩
    have fromZero : Fits (Int64.toInt 0 :: (sentElsewhere tx.txOut address).map (·.value.toInt)) :=
      fits_zero_cons.mpr fits
    obtain ⟨amount, spent⟩ := amount_spent_eq addressed fromZero
    obtain ⟨_, _, total⟩ := amount_spent_eq_ok spent
    exact ⟨amount, spent, total.trans (Int.zero_add _)⟩

theorem listed_state_iff {state address : String} {txs : List Transaction} :
    (∃ infos, (txs.mapM fun tx => do return (state, tx, ← tx.amountSpentByAccount address)) = .ok infos ∧
      infos.map (fun info => (info.1, info.2.1, info.2.2.toInt)) =
        txs.map fun tx => (state, tx, ((sentElsewhere tx.txOut address).map (·.value.toInt)).sum)) ↔
    ∀ tx ∈ txs, tx.Summable address := by
  rw [Outcome.mapM_map_iff]
  refine forall₂_congr fun tx _ => Iff.trans ?_ Transaction.amount_spent_iff
  constructor
  · rintro ⟨info, evaluated, same⟩
    obtain ⟨amount, spent, listed⟩ := Outcome.bind_eq_ok.mp evaluated
    obtain rfl := Except.ok.inj listed
    exact ⟨amount, spent, (Prod.mk.inj (Prod.mk.inj same).2).2⟩
  · rintro ⟨amount, spent, total⟩
    exact ⟨(state, tx, amount), Outcome.bind_eq_ok.mpr ⟨amount, spent, rfl⟩, by rw [total]⟩

/-- The transactions are listed, with what each sends to others, exactly when every output of each has an
address and no partial sum leaves the range. -/
theorem Account.listed_iff (account : Account) : account.Listed ↔
    ∀ tx ∈ account.pendingTransactions ++ account.confirmedTransactions, tx.Summable account.address := by
  rw [List.forall_mem_append, ← listed_state_iff, ← listed_state_iff]
  constructor
  · rintro ⟨infos, evaluated, same⟩
    obtain ⟨pending, first, evaluated⟩ := Outcome.bind_eq_ok.mp evaluated
    obtain ⟨confirmed, later, listed⟩ := Outcome.bind_eq_ok.mp evaluated
    obtain rfl := Except.ok.inj listed
    rw [List.map_append, entries] at same
    have length : pending.length = account.pendingTransactions.length := Outcome.mapM_length first
    obtain ⟨before, behind⟩ := List.append_inj same (by rw [List.length_map, length, List.length_map])
    exact ⟨⟨pending, first, before⟩, confirmed, later, behind⟩
  · rintro ⟨⟨pending, first, before⟩, confirmed, later, behind⟩
    refine ⟨pending ++ confirmed, ?_, by rw [List.map_append, before, behind]; rfl⟩
    rw [getTransactions, first, Outcome.bind_ok, later]
    rfl

end Lists

/-- Five to the account, and one to a script of one byte. -/
def Transaction.paysShort : Transaction :=
  .pay (U8Array.replicate 32 1) 0 [TxOut.new 5 paidScript, TxOut.new 1 [0x51]]

/-- The transaction decodes, and would be listed with its one satoshi; the other path skips the output. -/
theorem get_transactions_short :
    let _ := Crates.standard
    let account : Account := ⟨paidAddress, [], [.paysShort], []⟩
    Transaction.paysShort.WellFormed ∧ account.entries = [("Pending", .paysShort, 1)] ∧
      account.getTransactions = Outcome.fail "The pubkey field is too short" ∧ ¬account.Listed ∧
      (⟨Transaction.paysShort.hash, Transaction.paysShort.txOut.zipIdx⟩ : UtxoTuple).referencedUtxos paidAddress =
        .ok (some ⟨Transaction.paysShort.hash, [(TxOut.new 5 paidScript, 0)]⟩) := by
  intro _ account
  have outputs : ∀ txout ∈ Transaction.paysShort.txOut, txout.WellFormed := by
    refine List.forall_mem_cons.mpr ⟨CompactSizeUint.new_counts (by decide), List.forall_mem_singleton.mpr ?_⟩
    exact CompactSizeUint.new_counts (by decide)
  have refused : account.getTransactions = Outcome.fail "The pubkey field is too short" := by decide +kernel
  refine ⟨Transaction.pay_wellFormed (by decide) (CompactSizeUint.new_counts (by decide)) outputs, ?_, refused, ?_, ?_⟩
  · decide +kernel
  · rintro ⟨infos, listed, _⟩
    rw [refused] at listed
    cases listed
  · decide +kernel

end BitcoinNode
