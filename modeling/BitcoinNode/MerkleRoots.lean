import BitcoinNode.BlockCodec
import BitcoinNode.MerkleTree
import BitcoinNode.ProofOfWork

/-! Which lists the two root recursions finish on, what they return there, and what a path that
verifies says about its starting point. -/
namespace BitcoinNode

section Recursion

variable [Crates]

/-- Whatever the number of elements, the recursion finds the root of the rule: hash adjacent
entries, an odd last one with itself, until one is left. -/
theorem Block.recursive_generation_merkle_root_is_root (ids : List Hash) (nonempty : ids ≠ []) :
    ∃ root, (∀ depth, ids.length ≤ depth → recursiveGenerationMerkleRoot depth ids = .ok root) ∧
      Merkle.IsRoot concatenateAndHash ids root ∧
      ∀ other, Merkle.IsRoot concatenateAndHash ids other → other = root := by
  obtain ⟨root, _, rooted⟩ := recursive_generation_merkle_root_eq nonempty (Nat.le_refl _)
  refine ⟨root, fun depth enough => ?_, Merkle.isRoot_iff.mpr rooted, fun other rooted' => ?_⟩
  · obtain ⟨root', generated, rooted'⟩ := recursive_generation_merkle_root_eq nonempty enough
    obtain rfl : root = root' := by simpa [rooted] using rooted'
    exact generated
  · simpa [Merkle.isRoot_iff.mp rooted'] using rooted

/-- The recursion of the stored tree goes round on the empty list as well, which is even and so
is stored as it is. -/
theorem MerkleTree.recursive_generation_merkle_root_nil (depth : Nat) (below : List (List Hash)) :
    recursiveGenerationMerkleRoot depth [] below = Outcome.abort := by
  induction depth generalizing below with
  | zero => rfl
  | succ depth ih =>
    rw [recursiveGenerationMerkleRoot, upper_level_eq]
    simpa [Merkle.level, Merkle.pairs, pushLast] using ih (below ++ [[]])

theorem Block.generation_ends_iff (ids : List Hash) :
    (∃ depth root, Block.recursiveGenerationMerkleRoot depth ids = .ok root) ↔ ids ≠ [] := by
  constructor
  · rintro ⟨depth, root, generated⟩ rfl
    rw [Block.recursive_generation_merkle_root_nil] at generated
    cases generated
  · intro nonempty
    obtain ⟨root, generated, _⟩ :=
      Block.recursive_generation_merkle_root_eq nonempty (Nat.le_refl _)
    exact ⟨_, root, generated⟩

theorem MerkleTree.generation_ends_iff (ids : List Hash) (below : List (List Hash)) :
    (∃ depth levels, MerkleTree.recursiveGenerationMerkleRoot depth ids below = .ok levels) ↔
      ids ≠ [] := by
  constructor
  · rintro ⟨depth, levels, generated⟩ rfl
    rw [MerkleTree.recursive_generation_merkle_root_nil] at generated
    cases generated
  · intro nonempty
    have positive := List.length_pos_iff.mpr nonempty
    by_cases single : ids.length = 1
    · exact ⟨1, below, by rw [MerkleTree.recursiveGenerationMerkleRoot, if_pos single]; rfl⟩
    · exact ⟨_, _, MerkleTree.recursive_generation_merkle_root_eq (by omega) (Nat.le_refl _) _⟩

theorem MerkleTree.new_ends_iff (ids : List Hash) :
    (∃ tree, MerkleTree.new ids = .ok tree) ↔ ids ≠ [] := by
  constructor
  · rintro ⟨tree, built⟩ rfl
    rw [MerkleTree.new, MerkleTree.generateMerkleTree, MerkleTree.push_last_eq, Outcome.bind_ok,
      Merkle.pad, MerkleTree.recursive_generation_merkle_root_nil] at built
    cases built
  · exact fun nonempty => ⟨_, MerkleTree.new_eq nonempty⟩

theorem Block.validate_answers {b : Block} {root : Hash} (generated : b.generateMerkleRoot = .ok root)
    (work : b.blockHeader.validate = .ok true) : ∃ answer, b.validate = .ok answer := by
  rw [Block.validate, work, Outcome.bind_ok, generated, Outcome.bind_ok]
  split
  · exact ⟨_, rfl⟩
  split
  · exact ⟨_, rfl⟩
  · split <;> exact ⟨_, rfl⟩

/-- The Merkle root is only looked at behind a proof of work. -/
theorem Block.validate_ends_iff (b : Block) :
    b.validate ≠ Outcome.abort ↔ b.txn ≠ [] ∨ b.blockHeader.validate ≠ .ok true := by
  have noAbort := b.blockHeader.validate_ne_abort
  by_cases work : b.blockHeader.validate = .ok true
  · by_cases empty : b.txn = []
    · have aborts : b.generateMerkleRoot = Outcome.abort := by
        rw [Block.generateMerkleRoot, Block.txIds, empty]
        exact Block.recursive_generation_merkle_root_nil _
      rw [Block.validate, work, Outcome.bind_ok, aborts]
      simp [empty, Outcome.abort]
    · have nonempty : b.txIds ≠ [] := by simpa [Block.txIds] using empty
      obtain ⟨root, generated, _⟩ :=
        Block.recursive_generation_merkle_root_eq nonempty (Nat.le_of_eq (List.length_map _))
      obtain ⟨answer, answered⟩ := Block.validate_answers generated work
      simp [answered, empty, Outcome.abort]
  · refine iff_of_true (fun aborts => ?_) (.inr work)
    rw [Block.validate] at aborts
    rcases outcome : b.blockHeader.validate with e | (_ | _)
    · rw [outcome] at aborts noAbort
      exact noAbort (Except.error.inj aborts ▸ rfl)
    · simp [outcome, Outcome.abort] at aborts
    · exact work outcome

/-- Both recursions come to their base case exactly on the lists that are not empty; a decoded
block ends its validation unless it has a proof of work and no transaction. Accepted blocks, the
only ones that are stored, always have a tree. -/
theorem Block.validate_terminates_iff :
    (∀ ids : List Hash,
      (∃ depth root, Block.recursiveGenerationMerkleRoot depth ids = .ok root) ↔ ids ≠ []) ∧
    (∀ (bytes : List UInt8) (start stop : Nat) (b : Block),
      Block.unmarshalling bytes start = .ok (b, stop) →
        (b.validate ≠ Outcome.abort ↔ b.txn ≠ [] ∨ b.blockHeader.validate ≠ .ok true)) ∧
    (∀ (ids : List Hash) (below : List (List Hash)),
      (∃ depth levels, MerkleTree.recursiveGenerationMerkleRoot depth ids below = .ok levels) ↔
        ids ≠ []) ∧
    (∀ ids : List Hash, (∃ tree, MerkleTree.new ids = .ok tree) ↔ ids ≠ []) ∧
    ∀ b : Block, b.Accepted → ∃ tree, MerkleTree.new b.txIds = .ok tree :=
  ⟨Block.generation_ends_iff, fun _ _ _ b _ => b.validate_ends_iff,
    MerkleTree.generation_ends_iff, MerkleTree.new_ends_iff, fun _ accepted =>
      (MerkleTree.new_ends_iff _).mpr accepted.tx_ids_ne_nil⟩

end Recursion

section Soundness

variable [Crates]

/-- The pairs that were hashed to build a tree: every stored level but the top, two by two. -/
def MerkleTree.hashed (tree : MerkleTree) : List (Hash × Hash) :=
  tree.hashes.dropLast.flatMap Merkle.pairs

theorem MerkleTree.hashed_new {ids : List Hash} {tree : MerkleTree} (nonempty : ids ≠ [])
    (built : MerkleTree.new ids = .ok tree) :
    tree.hashed = Merkle.hashedPairs concatenateAndHash (tree.hashes.length - 1) ids := by
  obtain rfl := Except.ok.inj (built.symm.trans (MerkleTree.new_eq nonempty))
  exact (Merkle.tower_pairs concatenateAndHash (_ + 1) ids).trans
    (by rw [List.length_cons, Merkle.tower_length]; rfl)

theorem MerkleTree.climb_new {ids : List Hash} {tree : MerkleTree} {root : Hash} (nonempty : ids ≠ [])
    (built : MerkleTree.new ids = .ok tree) (rooted : tree.getMerkleRoot = .ok root) :
    Merkle.climb concatenateAndHash (tree.hashes.length - 1) ids = [root] := by
  obtain ⟨tree', root', built', rooted', above⟩ := MerkleTree.root_eq nonempty
  obtain rfl : tree = tree' := Except.ok.inj (built.symm.trans built')
  obtain rfl : root = root' := Except.ok.inj (rooted.symm.trans rooted')
  have upper : Merkle.level concatenateAndHash ids ≠ [] := by
    intro none
    simp [none, Merkle.root, Merkle.climb, Merkle.height] at above
  obtain ⟨top, climbs, top_eq⟩ := Merkle.climb_eq_root concatenateAndHash upper
  obtain rfl : top = root := Option.some.inj (top_eq.symm.trans above)
  obtain rfl := Except.ok.inj (built.symm.trans (MerkleTree.new_eq nonempty))
  rw [List.length_cons, Merkle.tower_length, Nat.add_sub_cancel, Merkle.climb,
    Function.iterate_succ_apply]
  exact climbs

/-- A path of the length of the tree that ends with its root and verifies starts at one of its
ids, or the fold and the tree hash two different pairs to the same value. -/
theorem make_merkle_proof_sound {ids : List Hash} {tree : MerkleTree} {root txId : Hash}
    {path : List (Hash × Bool)} (nonempty : ids ≠ []) (built : MerkleTree.new ids = .ok tree)
    (rooted : tree.getMerkleRoot = .ok root) (levels : path.length = tree.hashes.length)
    (last : path.getLast?.map Prod.fst = some root)
    (verified : makeMerkleProof path txId = .ok true) :
    txId ∈ ids ∨ Merkle.Collision concatenateAndHash
      (Merkle.foldPairs concatenateAndHash txId path.dropLast) tree.hashed := by
  obtain ⟨⟨top, flag⟩, atEnd, rfl⟩ := Option.map_eq_some_iff.mp last
  obtain ⟨steps, rfl⟩ := List.getLast?_eq_some_iff.mp atEnd
  have folded : Merkle.fold concatenateAndHash txId steps = top := by
    rw [make_merkle_proof_append] at verified
    exact beq_iff_eq.mp (Except.ok.inj verified)
  have length : steps.length = tree.hashes.length - 1 := by
    rw [← levels]
    simp
  rw [MerkleTree.hashed_new nonempty built, List.dropLast_concat]
  apply Merkle.mem_or_collision_of_fold length
  rw [MerkleTree.climb_new nonempty built rooted, folded]
  exact List.mem_singleton_self _

end Soundness

theorem Block.recursive_generation_merkle_root_is_root_three :
    let ids : List Hash := [U8Array.replicate 32 1, U8Array.replicate 32 2, U8Array.replicate 32 3]
    ∃ root, (∀ depth, 3 ≤ depth →
        @Block.recursiveGenerationMerkleRoot Crates.standard depth ids = .ok root) ∧
      Merkle.IsRoot (@concatenateAndHash Crates.standard) ids root := by
  intro ids
  obtain ⟨root, generated, rooted, _⟩ :=
    @Block.recursive_generation_merkle_root_is_root Crates.standard ids (by simp [ids])
  exact ⟨root, generated, rooted⟩

/-- The path of the second of two ids. -/
theorem make_merkle_proof_sound_pair :
    let _ := Crates.standard
    let ids : List Hash := [U8Array.replicate 32 1, U8Array.replicate 32 2]
    let root := concatenateAndHash (U8Array.replicate 32 1) (U8Array.replicate 32 2)
    let path := [(U8Array.replicate 32 1, true), (root, false)]
    let tree : MerkleTree := ⟨[ids, [root]]⟩
    U8Array.replicate 32 2 ∈ ids ∨ Merkle.Collision concatenateAndHash
      (Merkle.foldPairs concatenateAndHash (U8Array.replicate 32 2) path.dropLast) tree.hashed := by
  let _ := Crates.standard
  refine @make_merkle_proof_sound Crates.standard _ _ _ _ _ (List.cons_ne_nil _ _) ?_ rfl rfl rfl ?_
  · exact MerkleTree.new_eq (List.cons_ne_nil _ _)
  · exact (make_merkle_proof_append [(U8Array.replicate 32 1, true)] _ _ false).trans (by simp [Merkle.fold])

/-- 81 bytes of a peer: a header with the easiest target, and a transaction count of 0. -/
def Block.hollow : Block := .mined (U8Array.replicate 32 1) (U8Array.replicate 32 2) []

theorem Block.hollow_wellFormed : Block.hollow.WellFormed := by
  refine ⟨⟨⟨0, [], rfl, rfl⟩, rfl⟩, fun tx member => ?_⟩
  exact absurd member List.not_mem_nil

theorem Block.hollow_does_not_end :
    let _ := Crates.standard
    Block.hollow.marshalling.length = 81 ∧
      Block.unmarshalling Block.hollow.marshalling 0 = .ok (Block.hollow, 81) ∧
      Block.hollow.validate = Outcome.abort ∧
      (∀ depth, Block.recursiveGenerationMerkleRoot depth Block.hollow.txIds = Outcome.abort) ∧
      MerkleTree.new Block.hollow.txIds = Outcome.abort := by
  intro _
  have size : Block.hollow.marshalling.length = 81 := by decide
  have decoded := Block.unmarshalling_reads Block.hollow_wellFormed [] []
  have work : Block.hollow.blockHeader.validate = .ok true := by decide +kernel
  refine ⟨size, by simpa [size] using decoded, ?_, Block.recursive_generation_merkle_root_nil, rfl⟩
  by_contra ends
  rcases Block.hollow.validate_ends_iff.mp ends with filled | idle
  · exact filled rfl
  · exact idle work

theorem Block.validate_terminates_iff_hollow :
    let _ := Crates.standard
    (Block.hollow.validate ≠ Outcome.abort ↔
      Block.hollow.txn ≠ [] ∨ Block.hollow.blockHeader.validate ≠ .ok true) ∧
    ∃ tree, MerkleTree.new (Block.minted 1).txIds = .ok tree := by
  have decoded := Block.unmarshalling_reads Block.hollow_wellFormed [] []
  have accepted : @Block.Accepted Crates.standard (@Block.minted Crates.standard 1) :=
    @Block.minted_accepted Crates.standard 1 (by decide +kernel)
  exact ⟨(@Block.validate_terminates_iff Crates.standard).2.1 _ _ _ _ decoded,
    (@Block.validate_terminates_iff Crates.standard).2.2.2.2 _ accepted⟩

end BitcoinNode
