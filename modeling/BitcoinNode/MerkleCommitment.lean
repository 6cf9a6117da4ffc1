import BitcoinNode.Blocks

/-! What the header of an accepted block says about its transactions. The last id of an odd
level is hashed twice, so the header fixes the list up to that repetition only. -/
namespace BitcoinNode

section Commitment

variable [Crates]

/-- Two different pairs that the Merkle roots of the two blocks hash to the same value. -/
def Block.HashCollision (b b' : Block) : Prop :=
  Merkle.Collision concatenateAndHash (Merkle.hashed concatenateAndHash b.txIds)
    (Merkle.hashed concatenateAndHash b'.txIds)

/-- One list continues the other by repeating ids, and both trees hash the same leaves. -/
def Block.SameLeaves (b b' : Block) : Prop :=
  Merkle.complete b.txIds = Merkle.complete b'.txIds ∧
    (b.txIds <+: b'.txIds ∨ b'.txIds <+: b.txIds) ∧ ∀ id, id ∈ b.txIds ↔ id ∈ b'.txIds

/-- A transaction of the lower tree has the hash of a pair of the higher one. Either it is
exactly these 64 bytes long, or sha256d collides on the transaction and the pair. -/
def Block.TransactionIsPair (b b' : Block) : Prop :=
  Merkle.height b.txIds < Merkle.height b'.txIds ∧
    ∃ tx ∈ b.txn, ∃ p ∈ Merkle.hashed concatenateAndHash b'.txIds,
      sha256d tx.marshalling = sha256d (p.1.val ++ p.2.val)

theorem Block.SameLeaves.of_complete {b b' : Block}
    (same : Merkle.complete b.txIds = Merkle.complete b'.txIds) : b.SameLeaves b' := by
  have left : b.txIds <+: Merkle.complete b.txIds := Merkle.prefix_fill _ _
  have right : b'.txIds <+: Merkle.complete b'.txIds := Merkle.prefix_fill _ _
  refine ⟨same, List.prefix_or_prefix_of_prefix (same ▸ left) right,
    fun id => ⟨fun member => ?_, fun member => ?_⟩⟩
  · exact Merkle.mem_of_mem_fill (same ▸ left.subset member)
  · exact Merkle.mem_of_mem_fill (same ▸ right.subset member)

theorem Block.collision_or_transactionIsPair {b b' : Block} (nonempty : b.txIds ≠ [])
    (nonempty' : b'.txIds ≠ []) (lower : Merkle.height b.txIds < Merkle.height b'.txIds)
    (same : Merkle.root concatenateAndHash b.txIds = Merkle.root concatenateAndHash b'.txIds) :
    b.HashCollision b' ∨ b.TransactionIsPair b' := by
  rcases Merkle.leaf_is_inner_of_root_eq nonempty nonempty' lower same with
    collision | ⟨leaf, member, p, hashed, inner⟩
  · exact .inl collision
  · obtain ⟨tx, listed, rfl⟩ := List.mem_map.mp member
    exact .inr ⟨lower, tx, listed, p, hashed, inner.symm⟩

/-- Two accepted blocks under one header list the same ids, up to the repetition of the last one
on odd levels; or two different pairs collide; or a transaction of one block passes for an inner
entry of the other. -/
theorem Block.header_commits {b b' : Block} (same : b.blockHeader = b'.blockHeader)
    (accepted : b.Accepted) (accepted' : b'.Accepted) :
    (b.SameLeaves b' ∧ (b.txIds.length = b'.txIds.length → b.txIds = b'.txIds)) ∨
      b.HashCollision b' ∨ b.TransactionIsPair b' ∨ b'.TransactionIsPair b := by
  have nonempty := accepted.tx_ids_ne_nil
  have nonempty' := accepted'.tx_ids_ne_nil
  have root := (Block.accepted_iff.mp accepted).2.1
  have root' := (Block.accepted_iff.mp accepted').2.1
  rw [← same, ← root] at root'
  rcases Nat.lt_trichotomy (Merkle.height b.txIds) (Merkle.height b'.txIds) with
    lower | level | higher
  · rcases Block.collision_or_transactionIsPair nonempty nonempty' lower root'.symm with
      collision | pair
    · exact .inr (.inl collision)
    · exact .inr (.inr (.inl pair))
  · rcases Merkle.complete_eq_of_root_eq nonempty nonempty' level root'.symm with
      sameLeaves | collision
    · exact .inl ⟨.of_complete sameLeaves, Merkle.eq_of_fill_eq sameLeaves⟩
    · exact .inr (.inl collision)
  · rcases Block.collision_or_transactionIsPair nonempty' nonempty higher root' with
      collision | pair
    · exact .inr (.inl collision.symm)
    · exact .inr (.inr (.inr pair))

end Commitment

/-- Two lists under one header: three transactions, and the same with the last one repeated. -/
def Block.forked [Crates] (txn : List Transaction) : Block :=
  let id tag := (Transaction.mint tag []).hash
  .mined (U8Array.replicate 32 0)
    (concatenateAndHash (concatenateAndHash (id 1) (id 2)) (concatenateAndHash (id 3) (id 3))) txn

def Transaction.three : List Transaction := [mint 1 [], mint 2 [], mint 3 []]
def Transaction.four : List Transaction := [mint 1 [], mint 2 [], mint 3 [], mint 3 []]

theorem Block.forked_root [Crates] {txn : List Transaction}
    (either : txn = Transaction.three ∨ txn = Transaction.four) :
    Merkle.root concatenateAndHash (Block.forked txn).txIds =
      some (Block.forked txn).blockHeader.merkleRootHash := by
  rcases either with rfl | rfl <;>
    simp [Block.txIds, Block.forked, Block.mined, Transaction.three, Transaction.four,
      Merkle.root_level, Merkle.level, Merkle.pairs]

theorem Block.forked_accepted {txn : List Transaction}
    (either : txn = Transaction.three ∨ txn = Transaction.four) :
    let _ := Crates.standard
    (Block.forked txn).Accepted := by
  intro _
  refine Block.accepted_iff.mpr ⟨?_, Block.forked_root either, ?_⟩
  · have work : (Block.forked Transaction.three).blockHeader.validate = .ok true := by decide +kernel
    exact work
  · rcases either with rfl | rfl <;> decide +kernel

theorem Block.forked_hashed [Crates] {txn : List Transaction}
    (either : txn = Transaction.three ∨ txn = Transaction.four) :
    let id tag := (Transaction.mint tag []).hash
    Merkle.hashed concatenateAndHash (Block.forked txn).txIds =
      [(id 1, id 2), (id 3, id 3),
        (concatenateAndHash (id 1) (id 2), concatenateAndHash (id 3) (id 3))] := by
  have three : Nat.clog 2 3 = 2 := by decide
  have four : Nat.clog 2 4 = 2 := by decide
  rcases either with rfl | rfl <;>
    simp [Block.txIds, Block.forked, Block.mined, Transaction.three, Transaction.four, three, four,
      Merkle.hashed, Merkle.height, Merkle.hashedPairs, Merkle.level, Merkle.pairs]

/-- That the same root means the same transactions or a collision is false: the two blocks are accepted, differ
in a repeated transaction, and hash the same three pairs to three different values. -/
theorem Block.header_commits_forked :
    let _ := Crates.standard
    let b := Block.forked Transaction.three
    let b' := Block.forked Transaction.four
    b.blockHeader = b'.blockHeader ∧ b.Accepted ∧ b'.Accepted ∧
      ¬(b.txIds = b'.txIds ∨ b.HashCollision b') := by
  intro _ b b'
  refine ⟨rfl, Block.forked_accepted (.inl rfl), Block.forked_accepted (.inr rfl), ?_⟩
  rintro (same | collision)
  · exact absurd (congrArg List.length same) (by decide)
  · rw [Block.HashCollision, Block.forked_hashed (.inl rfl), Block.forked_hashed (.inr rfl)] at collision
    exact Merkle.not_collision_of_nodup (by decide +kernel) collision

theorem Block.header_commits_three :
    let _ := Crates.standard
    let b := Block.forked Transaction.three
    let b' := Block.forked Transaction.four
    (b.SameLeaves b' ∧ (b.txIds.length = b'.txIds.length → b.txIds = b'.txIds)) ∨
      b.HashCollision b' ∨ b.TransactionIsPair b' ∨ b'.TransactionIsPair b := by
  intro _ b b'
  exact Block.header_commits rfl (Block.forked_accepted (.inl rfl)) (Block.forked_accepted (.inr rfl))

end BitcoinNode
