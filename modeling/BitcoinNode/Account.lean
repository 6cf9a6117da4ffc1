import BitcoinNode.UtxoSet
import BitcoinNode.Lib.CheckedSum

/-! Accounts: the outputs that pay an address, and their balance. Visiting the utxo set takes an
order of its entries, which the map does not fix. -/
namespace BitcoinNode

def opDup : UInt8 := 0x76

/-- A P2PKH script of four bytes ends before its slice begins, which panics. -/
def Pubkey.generateAddress [Crates] (pubkey : Pubkey) : Outcome String String :=
  let bytes := pubkey.bytes
  let length := bytes.length
  if length ≤ 3 then Outcome.fail "The pubkey field is too short"
  else do
    let firstByte ← Outcome.index bytes 0
    let witness := if firstByte = 0x00 then bytes.drop 2 else []
    let legacy ← (if firstByte = opDup then
        if length - 2 < 3 then Outcome.panic else .ok (slice bytes 3 (length - 2))
      else .ok [] : Outcome String (List UInt8))
    let adressBytes := [0x6f] ++ witness ++ legacy
    let checksum := Crates.sha256 (Crates.sha256 adressBytes).val
    return Crates.bs58Encode (adressBytes ++ checksum.val.take 4)

def TxOut.getAddress [Crates] (t : TxOut) : Outcome String String := t.pkScript.generateAddress

namespace UtxoTuple

/-- An output without an address is skipped. -/
def referencedUtxos [Crates] (t : UtxoTuple) (address : String) : Checked (Option UtxoTuple) := do
  let utxoSet ← Outcome.collect (fun utxo => do
    match ← Outcome.attempt utxo.1.getAddress with
    | .ok value => return if address = value then some utxo else none
    | .error _ => return none) t.utxoSet
  return if utxoSet.isEmpty then none else some ⟨t.hash, utxoSet⟩

def balance (t : UtxoTuple) : Checked Int64 :=
  t.utxoSet.foldlM (fun balance utxo => do checkedAdd balance (← pure utxo.1.value)) 0

end UtxoTuple

structure Account where
  address : String
  utxoSet : List UtxoTuple
  pendingTransactions : List Transaction
  confirmedTransactions : List Transaction

namespace Account

def setUtxos [Crates] (account : Account) (visit : List (Hash × UtxoTuple)) : Checked Account := do
  let accountUtxoSet ←
    Outcome.collect (fun (_, utxo) => utxo.referencedUtxos account.address) visit
  return { account with utxoSet := accountUtxoSet }

def balance (account : Account) : Checked Int64 :=
  account.utxoSet.foldlM (fun balance utxo => do checkedAdd balance (← utxo.balance)) 0

end Account

/-- The outputs of some tuples, each with the transaction and the index it stands for. -/
def holdings (utxos : List UtxoTuple) : List (Hash × TxOut × Nat) :=
  utxos.flatMap fun t => t.utxoSet.map fun utxo => (t.hash, utxo)

def UtxoTuple.worth (t : UtxoTuple) : Int := (t.utxoSet.map (·.1.value.toInt)).sum

/-- No addition of `balance` overflows: neither inside a tuple nor between tuples. -/
structure NoOverflow (utxos : List UtxoTuple) : Prop where
  inside : ∀ t ∈ utxos, Fits (t.utxoSet.map (·.1.value.toInt))
  between : Fits (utxos.map UtxoTuple.worth)

theorem UtxoTuple.balance_eq {t : UtxoTuple} (fits : Fits (t.utxoSet.map (·.1.value.toInt))) :
    ∃ total, t.balance = .ok total ∧ total.toInt = t.worth :=
  foldlM_checked_add t.utxoSet (fun utxo => pure utxo.1.value) (·.1.value.toInt)
    (fun _ _ => ⟨_, rfl, rfl⟩) fits

theorem sum_holdings (utxos : List UtxoTuple) :
    ((holdings utxos).map (·.2.1.value.toInt)).sum = (utxos.map UtxoTuple.worth).sum := by
  induction utxos with
  | nil => rfl
  | cons t utxos ih =>
    rw [holdings] at ih
    simp [holdings, ih, UtxoTuple.worth, Function.comp_def]

theorem Account.balance_eq {account : Account} (fits : NoOverflow account.utxoSet) :
    ∃ total, account.balance = .ok total ∧
      total.toInt = ((holdings account.utxoSet).map (·.2.1.value.toInt)).sum := by
  obtain ⟨total, added, totalEq⟩ := foldlM_checked_add account.utxoSet UtxoTuple.balance
    UtxoTuple.worth (fun t member => UtxoTuple.balance_eq (fits.inside t member)) fits.between
  exact ⟨total, added, totalEq.trans (sum_holdings _).symm⟩

/-- Without negative values there is only the total to look at. -/
theorem noOverflow_iff_of_nonneg {utxos : List UtxoTuple}
    (nonneg : ∀ held ∈ holdings utxos, 0 ≤ held.2.1.value.toInt) :
    NoOverflow utxos ↔ ((holdings utxos).map (·.2.1.value.toInt)).sum < 2 ^ 63 := by
  have inside : ∀ t ∈ utxos, ∀ v ∈ t.utxoSet.map (·.1.value.toInt), 0 ≤ v := by
    intro t member v listed
    obtain ⟨utxo, held, rfl⟩ := List.mem_map.mp listed
    exact nonneg (t.hash, utxo) (List.mem_flatMap.mpr ⟨t, member, List.mem_map_of_mem held⟩)
  have worths : ∀ v ∈ utxos.map UtxoTuple.worth, 0 ≤ v :=
    List.forall_mem_map.mpr fun t member => List.sum_nonneg (inside t member)
  rw [sum_holdings, ← fits_iff_of_nonneg worths]
  refine ⟨NoOverflow.between, fun between => ⟨fun t member => (fits_iff_of_nonneg (inside t member)).mpr ?_, between⟩⟩
  have part := List.single_le_sum worths t.worth (List.mem_map_of_mem member)
  exact lt_of_le_of_lt part ((fits_iff_of_nonneg worths).mp between)

section Set

variable [Crates]

def UtxoTuple.paid (t : UtxoTuple) (address : String) : List (TxOut × Nat) :=
  t.utxoSet.filter fun utxo => decide (utxo.1.getAddress = .ok address)

def UtxoTuple.kept (t : UtxoTuple) (address : String) : Option UtxoTuple :=
  if (t.paid address).isEmpty then none else some ⟨t.hash, t.paid address⟩

theorem UtxoTuple.holdings_kept (tuples : List UtxoTuple) (address : String) :
    holdings (tuples.filterMap (·.kept address)) =
      tuples.flatMap fun t => (t.paid address).map fun utxo => (t.hash, utxo) := by
  induction tuples with
  | nil => rfl
  | cons t rest ih =>
    rw [holdings] at ih
    by_cases empty : t.paid address = []
    · have skipped : t.kept address = none := by simp [kept, empty]
      simp [holdings, skipped, ih, empty]
    · have pushed : t.kept address = some ⟨t.hash, t.paid address⟩ := by simp [kept, empty]
      simp [holdings, pushed, ih]

theorem UtxoTuple.referenced_utxos_eq {t : UtxoTuple} (address : String)
    (safe : ∀ utxo ∈ t.utxoSet, ∀ e, utxo.1.getAddress = .error e → ∃ text, e = .err text) :
    t.referencedUtxos address = .ok (t.kept address) := by
  have each : ∀ utxo ∈ t.utxoSet, (do
      match ← Outcome.attempt utxo.1.getAddress with
      | .ok value => return if address = value then some utxo else none
      | .error _ => return none : Checked (Option (TxOut × Nat))) =
        .ok (Option.guard (fun utxo => decide (utxo.1.getAddress = .ok address)) utxo) := by
    intro utxo member
    cases shape : utxo.1.getAddress with
    | error e =>
      obtain ⟨text, rfl⟩ := safe utxo member e shape
      simp [Outcome.attempt, Option.guard, shape]
    | ok value =>
      by_cases same : address = value <;>
        simp [Outcome.attempt, Option.guard, shape, same, eq_comm]
  rw [UtxoTuple.referencedUtxos, Outcome.collect_eq each, List.filterMap_eq_filter]
  rfl

/-- Every visited tuple leaves the outputs that pay the account, in the order of the visit. -/
theorem Account.set_utxos_eq (account : Account) {visit : List (Hash × UtxoTuple)}
    (safe : ∀ entry ∈ visit, ∀ utxo ∈ entry.2.utxoSet, ∀ e,
      utxo.1.getAddress = .error e → ∃ text, e = .err text) :
    account.setUtxos visit =
      .ok { account with utxoSet := (visit.map Prod.snd).filterMap (·.kept account.address) } := by
  rw [setUtxos, Outcome.collect_eq fun entry member =>
    UtxoTuple.referenced_utxos_eq account.address (safe entry member), List.filterMap_map]
  rfl

end Set

end BitcoinNode
