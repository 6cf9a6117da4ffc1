import BitcoinNode.UtxoSet

/-! The same blocks in two orders. What their ledgers hold differs only in outputs that are spent
after their last creation in one order and not in the other. -/
namespace BitcoinNode

theorem exists_last_mem {α : Type} {xs : List α} {x : α} (member : x ∈ xs) :
    ∃ before after, xs = before ++ x :: after ∧ x ∉ after := by
  obtain ⟨after, before, split, fresh⟩ := List.eq_append_cons_of_mem (List.mem_reverse.mpr member)
  refine ⟨before.reverse, after.reverse, ?_, by simpa using fresh⟩
  simpa using congrArg List.reverse split

section SpendOrder

variable [Crates]

/-- The transactions of blocks as events, in order. -/
def events (blocks : List Block) : List (Ledger.Event Hash TxOut) :=
  (blocks.flatMap Block.txn).map Transaction.event

def Block.Spends (b : Block) (txId : Hash) (index : Nat) : Prop :=
  ∃ tx ∈ b.txn, (txId, index) ∈ tx.spends

/-- Ids are distinct, and no transaction spends an output of itself or of a later one. -/
structure Chained (blocks : List Block) : Prop where
  distinct : ((blocks.flatMap Block.txn).map Transaction.hash).Nodup
  earlier : ∀ before tx after, blocks.flatMap Block.txn = before ++ tx :: after →
    ∀ other ∈ before ++ [tx], ∀ index, (tx.hash, index) ∉ other.spends

/-- Whenever a block is delivered, each of its outputs that the segment spends is spent by that
block or by one that is delivered after it. -/
def SpendsFollow (segment delivered : List Block) : Prop :=
  ∀ b ∈ segment, ∀ tx ∈ b.txn, ∀ index < tx.txOut.length,
    (∃ spender ∈ segment, spender.Spends tx.hash index) →
      ∀ before after, delivered = before ++ b :: after →
        ∃ spender ∈ b :: after, spender.Spends tx.hash index

@[simp] theorem events_append (blocks more : List Block) :
    events (blocks ++ more) = events blocks ++ events more := by
  simp [events]

@[simp] theorem events_cons (b : Block) (blocks : List Block) :
    events (b :: blocks) = b.txn.map Transaction.event ++ events blocks := by
  simp [events]

theorem mem_events {blocks : List Block} {e : Ledger.Event Hash TxOut} :
    e ∈ events blocks ↔ ∃ b ∈ blocks, ∃ tx ∈ b.txn, tx.event = e := by
  constructor
  · intro member
    obtain ⟨tx, listed, rfl⟩ := List.mem_map.mp member
    obtain ⟨b, here, inside⟩ := List.mem_flatMap.mp listed
    exact ⟨b, here, tx, inside, rfl⟩
  · rintro ⟨b, here, tx, inside, rfl⟩
    exact List.mem_map_of_mem (List.mem_flatMap.mpr ⟨b, here, inside⟩)

theorem spent_events {blocks : List Block} {txId : Hash} {index : Nat} :
    Ledger.Spent (events blocks) txId index ↔ ∃ b ∈ blocks, b.Spends txId index := by
  constructor
  · rintro ⟨e, member, spends⟩
    obtain ⟨b, listed, tx, inside, rfl⟩ := mem_events.mp member
    exact ⟨b, listed, tx, inside, spends⟩
  · rintro ⟨b, listed, tx, inside, spends⟩
    exact ⟨tx.event, mem_events.mpr ⟨b, listed, tx, inside, rfl⟩, spends⟩

/-- Delivering the same blocks in another order and number: the utxo sets agree when each output
is spent after its last creation in both orders or in neither. -/
theorem events_run_eq_iff {delivered segment : List Block} (same : ∀ b, b ∈ delivered ↔ b ∈ segment)
    (outs : ∀ tx ∈ segment.flatMap Block.txn, ∀ tx' ∈ segment.flatMap Block.txn,
      tx.hash = tx'.hash → tx.txOut = tx'.txOut) :
    Ledger.run Ledger.empty (events delivered) = Ledger.run Ledger.empty (events segment) ↔
      ∀ tx ∈ segment.flatMap Block.txn, ∀ index < tx.txOut.length,
        (Ledger.SpentSince (events delivered) tx.hash index ↔
          Ledger.SpentSince (events segment) tx.hash index) := by
  have member : ∀ e, e ∈ events delivered ↔ e ∈ events segment := by
    simp only [mem_events, same, implies_true]
  have keys (key : Hash) : Ledger.Silent (events delivered) key ↔ Ledger.Silent (events segment) key := by
    simp only [Ledger.Silent, member]
  rw [Ledger.run_empty_eq_iff keys, events, events, List.forall_mem_map]
  · rfl
  · intro e listed e' listed' key
    obtain ⟨tx, inside, rfl⟩ := List.mem_map.mp ((member e).mp listed)
    obtain ⟨tx', inside', rfl⟩ := List.mem_map.mp listed'
    exact outs tx inside tx' inside' key

section Chained

variable {segment delivered : List Block} {b : Block} {tx : Transaction} {index : Nat}

theorem Chained.split {before after : List Block} {front back : List Transaction}
    (chained : Chained (before ++ b :: after)) (shape : b.txn = front ++ tx :: back) :
    (∀ b' ∈ before, ∀ index, ¬b'.Spends tx.hash index) ∧
      (∀ other ∈ front ++ [tx], ∀ index, (tx.hash, index) ∉ other.spends) ∧
      (∀ other ∈ back, other.hash ≠ tx.hash) ∧
      ∀ b' ∈ before ++ after, ∀ other ∈ b'.txn, other.hash ≠ tx.hash := by
  have split : (before ++ b :: after).flatMap Block.txn =
      (before.flatMap Block.txn ++ front) ++ tx :: (back ++ after.flatMap Block.txn) := by
    simp [shape]
  have earlier := chained.earlier _ tx _ split
  have distinct := chained.distinct
  rw [split, List.map_append, List.map_cons] at distinct
  obtain ⟨_, rest, apart⟩ := List.nodup_append.mp distinct
  have later : ∀ other ∈ back ++ after.flatMap Block.txn, other.hash ≠ tx.hash :=
    fun other member same => (List.nodup_cons.mp rest).1 (same ▸ List.mem_map_of_mem member)
  refine ⟨?_, fun other member => earlier other ?_, fun other member => later other (by simp [member]), ?_⟩
  · rintro b' listed index ⟨other, inside, spends⟩
    have member : other ∈ before.flatMap Block.txn := List.mem_flatMap.mpr ⟨b', listed, inside⟩
    exact earlier other (by simp [member]) index spends
  · rw [List.append_assoc]
    exact List.mem_append_right _ member
  · intro b' listed other inside
    cases List.mem_append.mp listed with
    | inl earlier =>
      have member : other ∈ before.flatMap Block.txn := List.mem_flatMap.mpr ⟨b', earlier, inside⟩
      exact apart _ (List.mem_map_of_mem (by simp [member])) _ (by simp)
    | inr after => exact later other (by simpa using .inr ⟨b', after, inside⟩)

/-- An output is spent after its last creation when each delivery of its block is followed by a
spender, the block itself included. -/
theorem Chained.spentSince_iff (chained : Chained segment) (only : ∀ b' ∈ delivered, b' ∈ segment)
    (arrived : b ∈ delivered) (inside : tx ∈ b.txn) :
    Ledger.SpentSince (events delivered) tx.hash index ↔
      ∀ before after, delivered = before ++ b :: after →
        ∃ spender ∈ b :: after, spender.Spends tx.hash index := by
  obtain ⟨front, back, shape⟩ := List.append_of_mem inside
  obtain ⟨left, right, rfl⟩ := List.append_of_mem (only b arrived)
  obtain ⟨_, none, fresh, others⟩ := chained.split shape
  obtain ⟨before, after, rfl, last⟩ := exists_last_mem arrived
  have own : Ledger.Spent (back.map Transaction.event) tx.hash index ↔ b.Spends tx.hash index := by
    constructor
    · rintro ⟨e, member, spends⟩
      obtain ⟨other, later, rfl⟩ := List.mem_map.mp member
      exact ⟨other, by simp [shape, later], spends⟩
    · rintro ⟨other, member, spends⟩
      have later : other ∈ back := by
        rw [shape, List.append_cons, List.mem_append] at member
        exact member.resolve_left fun early => none other early index spends
      exact ⟨other.event, List.mem_map_of_mem later, spends⟩
  have silent : Ledger.Silent (back.map Transaction.event ++ events after) tx.event.key := by
    intro e member
    cases List.mem_append.mp member with
    | inl here =>
      obtain ⟨other, listed, rfl⟩ := List.mem_map.mp here
      exact fresh other listed
    | inr later =>
      obtain ⟨b', listed, other, inside', rfl⟩ := mem_events.mp later
      have known := only b' (by simp [listed])
      have different : b' ≠ b := fun same => last (same ▸ listed)
      exact others b' (by simpa [different] using known) other inside'
  have spent : Ledger.SpentSince (events (before ++ b :: after)) tx.hash index ↔
      ∃ spender ∈ b :: after, spender.Spends tx.hash index := by
    have order : events (before ++ b :: after) = (events before ++ front.map Transaction.event) ++
        tx.event :: (back.map Transaction.event ++ events after) := by
      simp [shape]
    rw [order]
    apply (Ledger.spentSince_iff silent).trans
    change Ledger.Spent _ tx.hash index ↔ _
    rw [Ledger.spent_append, own, spent_events]
    simp
  rw [spent]
  constructor
  · rintro ⟨spender, member, spends⟩ before' after' split
    refine ⟨spender, ?_, spends⟩
    rcases List.append_eq_append_iff.mp split with ⟨middle, -, tail⟩ | ⟨middle, -, tail⟩
    · cases middle with
      | nil =>
        obtain rfl : after = after' := (List.cons.inj tail).2
        exact member
      | cons x middle =>
        have again : b ∈ after := by rw [(List.cons.inj tail).2]; simp
        exact absurd again last
    · rw [tail]
      exact List.mem_append_right _ member
  · exact fun follows => follows before after rfl

theorem Chained.spent_iff (chained : Chained segment) (listed : b ∈ segment) (inside : tx ∈ b.txn) :
    Ledger.SpentSince (events segment) tx.hash index ↔
      ∃ spender ∈ segment, spender.Spends tx.hash index := by
  constructor
  · exact fun since => spent_events.mp since.spent
  · rintro ⟨spender, member, spends⟩
    apply (chained.spentSince_iff (fun _ => id) listed inside).mpr
    intro before after split
    obtain ⟨front, back, shape⟩ := List.append_of_mem inside
    subst split
    cases List.mem_append.mp member with
    | inl early => exact absurd spends ((chained.split shape).1 spender early index)
    | inr late => exact ⟨spender, late, spends⟩

/-- In a chained segment the order matters only for outputs that the segment spends. -/
theorem Chained.order_iff (chained : Chained segment) (same : ∀ b, b ∈ delivered ↔ b ∈ segment) :
    (∀ tx ∈ segment.flatMap Block.txn, ∀ index < tx.txOut.length,
      (Ledger.SpentSince (events delivered) tx.hash index ↔
        Ledger.SpentSince (events segment) tx.hash index)) ↔ SpendsFollow segment delivered := by
  have only : ∀ b ∈ delivered, b ∈ segment := fun b => (same b).mp
  constructor
  · intro agree b listed tx inside index bound spent
    have since := (chained.spent_iff listed inside).mpr spent
    apply (chained.spentSince_iff only ((same b).mpr listed) inside).mp
    exact (agree tx (List.mem_flatMap.mpr ⟨b, listed, inside⟩) index bound).mpr since
  · intro follows tx member index bound
    obtain ⟨b, listed, inside⟩ := List.mem_flatMap.mp member
    rw [chained.spent_iff listed inside, chained.spentSince_iff only ((same b).mpr listed) inside]
    constructor
    · intro each
      obtain ⟨before, after, split⟩ := List.append_of_mem ((same b).mpr listed)
      obtain ⟨spender, here, spends⟩ := each before after split
      exact ⟨spender, only spender (by rw [split]; exact List.mem_append_right _ here), spends⟩
    · exact follows b listed tx inside index bound

theorem Chained.follows (chained : Chained segment) : SpendsFollow segment segment :=
  (chained.order_iff fun _ => Iff.rfl).mp fun _ _ _ _ => Iff.rfl

end Chained

end SpendOrder

end BitcoinNode
