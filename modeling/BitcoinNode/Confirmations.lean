import BitcoinNode.PendingTransactions
import Mathlib.Data.List.Lattice

/-! A block confirms the pending transactions that it holds: they move to the end of the confirmed
ones, in the order of the block, and nothing else changes. -/
namespace BitcoinNode

theorem bagInter_append_diff [DecidableEq α] (txn pending : List α) :
    (txn.bagInter pending ++ pending.diff txn).Perm pending := by
  rw [List.perm_iff_count]
  intro tx
  rw [List.count_append, List.count_bagInter, List.count_diff]
  omega

section Confirmations

variable [Crates]

/-- Distinct pending transactions have distinct hashes. -/
def Account.Apart (account : Account) : Prop :=
  ∀ tx ∈ account.pendingTransactions, ∀ other ∈ account.pendingTransactions, tx.hash = other.hash → tx = other

theorem Account.confirm_apart {account : Account} (apart : account.Apart) {tx : Transaction}
    (pending : tx ∈ account.pendingTransactions) :
    account.confirm tx = { account with
      pendingTransactions := account.pendingTransactions.erase tx
      confirmedTransactions := account.confirmedTransactions ++ [tx] } := by
  obtain ⟨front, moved, back, split, same, before, confirmed⟩ := confirm_pending pending
  obtain rfl : moved = tx := apart moved (by simp [split]) tx pending same
  have absent : moved ∉ front := fun member => before moved member rfl
  rw [confirmed, split, List.erase_append_right _ absent, List.erase_cons_head]

/-- A block moves the pending transactions that it holds, each as often as both lists have it. -/
theorem Account.confirm_all_apart {account : Account} (apart : account.Apart) (txn : List Transaction) :
    account.confirmAll txn = { account with
      pendingTransactions := account.pendingTransactions.diff txn
      confirmedTransactions :=
        account.confirmedTransactions ++ txn.bagInter account.pendingTransactions } := by
  induction txn generalizing account with
  | nil => simp [confirmAll]
  | cons tx rest ih =>
    have next : account.confirmAll (tx :: rest) = (account.confirm tx).confirmAll rest := rfl
    by_cases pending : tx ∈ account.pendingTransactions
    · have here := confirm_apart apart pending
      have others := @ih (account.confirm tx) (by
        rw [here]
        exact fun t member t' member' => apart t (List.mem_of_mem_erase member) t' (List.mem_of_mem_erase member'))
      rw [next, others, here, List.diff_cons, List.cons_bagInter_of_mem _ pending]
      simp
    · rw [next, confirm_other pending, ih apart, List.diff_cons, List.erase_of_not_mem pending,
        List.cons_bagInter_of_not_mem _ pending]

/-- What a block with these transactions does to an account. -/
structure Account.Confirms (txn : List Transaction) (account account' : Account) : Prop where
  fields : account'.address = account.address ∧ account'.utxoSet = account.utxoSet
  conserved : (account'.pendingTransactions ++ account'.confirmedTransactions).Perm
    (account.pendingTransactions ++ account.confirmedTransactions)
  moved : ∃ moved : List Transaction,
    account'.confirmedTransactions = account.confirmedTransactions ++ moved ∧ moved.Sublist txn ∧
    ∀ tx, moved.count tx = min (txn.count tx) (account.pendingTransactions.count tx)
  left : account'.pendingTransactions.Sublist account.pendingTransactions

theorem Account.confirm_all_confirms {account : Account} (apart : account.Apart) (txn : List Transaction) :
    account.Confirms txn (account.confirmAll txn) := by
  rw [confirm_all_apart apart]
  refine ⟨⟨rfl, rfl⟩, ?_, ⟨_, rfl, List.bagInter_sublist_left, fun tx => List.count_bagInter⟩, List.diff_sublist _ _⟩
  rw [List.perm_iff_count]
  intro tx
  have parts := (bagInter_append_diff txn account.pendingTransactions).count_eq tx
  simp only [List.count_append] at parts ⊢
  omega

/-- Confirmation moves transactions, and loses none. With the accounts poisoned nothing moves. -/
theorem Block.contains_pending_tx_moves (b : Block) (s : NodeDataPointers)
    (apart : ∀ account ∈ s.accounts, account.Apart) :
    (s.accountsPoisoned = true → (b.containsPendingTx.run s).2 = s) ∧
    (s.accountsPoisoned = false → ∃ accounts,
      b.containsPendingTx.run s = (.ok (), { s with accounts }) ∧
      List.Forall₂ (Account.Confirms b.txn) s.accounts accounts) := by
  refine ⟨fun dead => ?_, fun alive => ⟨_, b.run_contains_pending_tx alive, ?_⟩⟩
  · rw [containsPendingTx]
    cases b.txn with
    | nil => rfl
    | cons tx rest =>
      have refused : (do
          let s ← Proc.get
          if s.accountsPoisoned then Proc.lift (Outcome.fail poisoned)
          else Proc.modify fun s => { s with accounts := s.accounts.map (Account.confirm tx) } : Handler Unit).run s =
            (Outcome.fail poisoned, s) := by
        rw [Proc.run_bind_ok _ (Proc.run_get s), if_pos dead]
        rfl
      rw [Proc.each, Proc.run_bind_error _ refused]
  · rw [List.forall₂_map_right_iff, List.forall₂_same]
    exact fun account member => Account.confirm_all_confirms (apart account member) _

end Confirmations

/-- A block with one transaction twice, at two accounts: pending twice and once, next to another. -/
theorem Block.contains_pending_tx_moves_twice :
    let _ := Crates.standard
    let t := Transaction.mint 1 []
    let u := Transaction.mint 2 []
    let b := Block.mined (U8Array.replicate 32 1) t.hash [t, .mint 3 [], t]
    let s : NodeDataPointers := ⟨.initial, [⟨"one", [], [t, u, t], []⟩, ⟨"other", [], [u, t], [u]⟩], false⟩
    t ∈ b.txn ∧ ∃ accounts, b.containsPendingTx.run s = (.ok (), { s with accounts }) ∧
      List.Forall₂ (Account.Confirms b.txn) s.accounts accounts := by
  intro _ t u b s
  have different : t.hash ≠ u.hash := by decide +kernel
  have pair : ∀ tx ∈ [t, u], ∀ other ∈ [t, u], tx.hash = other.hash → tx = other := by
    simp [different, different.symm]
  refine ⟨List.mem_cons_self .., (b.contains_pending_tx_moves s fun account member => ?_).2 rfl⟩
  have part : account.pendingTransactions ⊆ [t, u] := by
    rcases List.mem_pair.mp member with rfl | rfl <;> simp
  exact fun tx listed other listed' => pair tx (part listed) other (part listed')

end BitcoinNode
