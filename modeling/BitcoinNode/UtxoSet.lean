import BitcoinNode.Blocks
import BitcoinNode.Lib.HashMap
import BitcoinNode.Lib.Ledger
import BitcoinNode.Lib.Proc

/-! The set of unspent outputs and how blocks change it. Each transaction is an event of a
`Ledger`: a coinbase transaction spends nothing, every other one spends what its inputs name. -/
namespace BitcoinNode

/-- The unspent outputs of one transaction, each with its index in it. -/
structure UtxoTuple where
  hash : Hash
  utxoSet : List (TxOut × Nat)
  deriving DecidableEq

abbrev UtxoSet := HashMap Hash UtxoTuple

/-- Removes the first entry with the index; the loop stops there. -/
def UtxoTuple.removeUtxo (t : UtxoTuple) (outputIndex : Nat) : UtxoTuple :=
  { t with utxoSet := t.utxoSet.eraseP (·.2 = outputIndex) }

namespace Transaction

/-- A tuple whose last output is removed stays in the map. -/
def removeUtxos (tx : Transaction) (utxoSet : UtxoSet) : UtxoSet :=
  tx.txIn.foldl (fun utxoSet txin =>
    utxoSet.modify txin.getPreviousOutputHash (·.removeUtxo txin.getPreviousOutputIndex)) utxoSet

def loadUtxos [Crates] (tx : Transaction) (utxoSet : UtxoSet) : UtxoSet :=
  utxoSet.insert tx.hash ⟨tx.hash, tx.txOut.zipIdx⟩

end Transaction

/-- A transaction without inputs panics here, with the transactions before it applied. -/
def Block.giveMeUtxos [Crates] (b : Block) : Proc UtxoSet Empty Unit :=
  Proc.each b.txn fun tx => do
    let coinbase ← Proc.lift tx.isCoinbaseTransaction
    if coinbase then
      Proc.modify tx.loadUtxos
    else do
      Proc.modify tx.removeUtxos
      Proc.modify tx.loadUtxos

def UtxoSet.ledger (s : UtxoSet) : Ledger.State Hash TxOut := fun t => (s.get t).map (·.utxoSet)

/-- Tuples carry the id they are stored under. -/
def UtxoSet.Keyed (s : UtxoSet) : Prop := ∀ t tuple, s.get t = some tuple → tuple.hash = t

/-- `isCoinbaseTransaction`, where there is an input to ask. -/
def Transaction.Coinbase (tx : Transaction) : Prop := ∃ first ∈ tx.txIn.head?, first.isCoinbase

instance (tx : Transaction) : Decidable tx.Coinbase :=
  inferInstanceAs (Decidable (∃ first ∈ tx.txIn.head?, first.isCoinbase))

def TxIn.names (txin : TxIn) : Hash × Nat :=
  (txin.getPreviousOutputHash, txin.getPreviousOutputIndex)

def Transaction.spends (tx : Transaction) : List (Hash × Nat) :=
  if tx.Coinbase then [] else tx.txIn.map TxIn.names

def Transaction.event [Crates] (tx : Transaction) : Ledger.Event Hash TxOut :=
  ⟨tx.hash, tx.txOut, tx.spends⟩

theorem UtxoSet.ledger_modify (s : UtxoSet) (txin : TxIn) :
    UtxoSet.ledger (s.modify txin.getPreviousOutputHash
      (·.removeUtxo txin.getPreviousOutputIndex)) = Ledger.spend s.ledger txin.names := by
  funext t
  by_cases here : t = txin.getPreviousOutputHash
  · subst here
    cases held : s.get txin.getPreviousOutputHash <;>
      simp [UtxoSet.ledger, Ledger.spend, TxIn.names, held, UtxoTuple.removeUtxo, Ledger.erase]
  · rw [UtxoSet.ledger, HashMap.get_modify_of_ne _ here]
    exact (Function.update_of_ne (f := s.ledger) here _).symm

theorem Transaction.ledger_remove_utxos (tx : Transaction) (s : UtxoSet) :
    UtxoSet.ledger (tx.removeUtxos s) = (tx.txIn.map TxIn.names).foldl Ledger.spend s.ledger := by
  rw [removeUtxos]
  induction tx.txIn generalizing s with
  | nil => rfl
  | cons txin rest ih => rw [List.foldl_cons, ih, UtxoSet.ledger_modify]; rfl

theorem Transaction.ledger_load_utxos [Crates] (tx : Transaction) (s : UtxoSet) :
    UtxoSet.ledger (tx.loadUtxos s) = Function.update s.ledger tx.hash (some tx.txOut.zipIdx) := by
  funext t
  by_cases here : t = tx.hash
  · subst here
    simp [UtxoSet.ledger, loadUtxos]
  · rw [Function.update_of_ne here, UtxoSet.ledger, loadUtxos, HashMap.get_insert_of_ne _ here]
    rfl

theorem UtxoSet.eq_of_ledger {s s' : UtxoSet} (keyed : s.Keyed) (keyed' : s'.Keyed)
    (same : s.ledger = s'.ledger) : s = s' := by
  apply HashMap.ext_get
  intro t
  have entry := congrFun same t
  rw [UtxoSet.ledger, UtxoSet.ledger] at entry
  cases held : s.get t with
  | none => simpa [held, eq_comm] using entry
  | some tuple =>
    rw [held, Option.map_some, eq_comm, Option.map_eq_some_iff] at entry
    obtain ⟨tuple', held', outs⟩ := entry
    have own := (keyed' t tuple' held').trans (keyed t tuple held).symm
    obtain ⟨hash, utxoSet⟩ := tuple
    obtain ⟨hash', utxoSet'⟩ := tuple'
    obtain rfl : hash' = hash := own
    obtain rfl : utxoSet' = utxoSet := outs
    exact held'.symm

theorem UtxoSet.Keyed.modify {s : UtxoSet} (keyed : s.Keyed) (txin : TxIn) :
    UtxoSet.Keyed (s.modify txin.getPreviousOutputHash
      (·.removeUtxo txin.getPreviousOutputIndex)) := by
  intro t tuple stored
  by_cases here : t = txin.getPreviousOutputHash
  · subst here
    rw [HashMap.get_modify] at stored
    obtain ⟨before, held, rfl⟩ := Option.map_eq_some_iff.mp stored
    exact keyed _ before held
  · rw [HashMap.get_modify_of_ne _ here] at stored
    exact keyed t tuple stored

theorem UtxoSet.Keyed.removeUtxos {s : UtxoSet} (keyed : s.Keyed) (tx : Transaction) :
    UtxoSet.Keyed (tx.removeUtxos s) := by
  rw [Transaction.removeUtxos]
  induction tx.txIn generalizing s with
  | nil => exact keyed
  | cons txin rest ih => exact ih (keyed.modify txin)

theorem UtxoSet.Keyed.loadUtxos [Crates] {s : UtxoSet} (keyed : s.Keyed) (tx : Transaction) :
    UtxoSet.Keyed (tx.loadUtxos s) := by
  intro t tuple stored
  by_cases here : t = tx.hash
  · subst here
    rw [Transaction.loadUtxos, HashMap.get_insert] at stored
    exact congrArg UtxoTuple.hash (Option.some.inj stored).symm
  · rw [Transaction.loadUtxos, HashMap.get_insert_of_ne _ here] at stored
    exact keyed t tuple stored

theorem Transaction.is_coinbase_transaction_eq {tx : Transaction} (inputs : tx.txIn ≠ []) :
    tx.isCoinbaseTransaction = .ok (decide tx.Coinbase) := by
  obtain ⟨first, rest, shape⟩ := List.exists_cons_of_ne_nil inputs
  simp [isCoinbaseTransaction, Transaction.Coinbase, Outcome.index, shape]

section Run

variable [Crates]

/-- One iteration of `giveMeUtxos` is one event. -/
def Transaction.settle (tx : Transaction) (s : UtxoSet) : UtxoSet :=
  tx.loadUtxos (if tx.Coinbase then s else tx.removeUtxos s)

theorem Transaction.ledger_settle (tx : Transaction) (s : UtxoSet) :
    UtxoSet.ledger (tx.settle s) = Ledger.apply s.ledger tx.event := by
  rw [settle, ledger_load_utxos, Ledger.apply, event, spends]
  split
  · rfl
  · rw [ledger_remove_utxos]

theorem UtxoSet.Keyed.settle {s : UtxoSet} (keyed : s.Keyed) (tx : Transaction) :
    UtxoSet.Keyed (tx.settle s) := by
  rw [Transaction.settle]
  split
  · exact keyed.loadUtxos tx
  · exact (keyed.removeUtxos tx).loadUtxos tx

/-- Where every transaction has an input, a block is its transactions one after the other. -/
theorem Block.give_me_utxos_eq {b : Block} (inputs : ∀ tx ∈ b.txn, tx.txIn ≠ []) (s : UtxoSet) :
    b.giveMeUtxos.run s = (.ok (), b.txn.foldl (fun s tx => tx.settle s) s) := by
  refine Proc.run_each (g := Transaction.settle) (fun tx member s => ?_) s
  rw [Proc.run_bind_ok (a := decide tx.Coinbase) _
    (by rw [Transaction.is_coinbase_transaction_eq (inputs tx member)]; rfl)]
  by_cases coinbase : tx.Coinbase <;> simp [coinbase, Transaction.settle, Proc.run_bind]

theorem UtxoSet.settle_all (txs : List Transaction) (s : UtxoSet) :
    UtxoSet.ledger (txs.foldl (fun s tx => tx.settle s) s) = Ledger.run s.ledger (txs.map Transaction.event) ∧
      (s.Keyed → UtxoSet.Keyed (txs.foldl (fun s tx => tx.settle s) s)) := by
  induction txs generalizing s with
  | nil => exact ⟨rfl, id⟩
  | cons tx rest ih =>
    obtain ⟨ledger, keyed⟩ := ih (tx.settle s)
    refine ⟨?_, fun before => keyed (before.settle tx)⟩
    rw [List.foldl_cons, ledger, Transaction.ledger_settle]
    rfl

end Run

end BitcoinNode
