import BitcoinNode.Blocks

/-! The stored Merkle tree, its proofs of inclusion and their verifier. The tree repeats the
last entry of odd levels when it stores them; its levels are `Merkle.tower`. -/
namespace BitcoinNode

/-- The first level are the leaves, the last is the root. -/
structure MerkleTree where
  hashes : List (List Hash)

namespace MerkleTree

/-- `if level.len() % 2 != 0 { level.push(level[level.len() - 1]) }` -/
def pushLast (level : List Hash) : Checked (List Hash) :=
  if level.length % 2 ≠ 0 then do
    let last ← Outcome.index level (level.length - 1)
    return level ++ [last]
  else
    return level

theorem push_last_eq (level : List Hash) : pushLast level = .ok (Merkle.pad level) := by
  unfold pushLast
  rw [Merkle.pad_eq]
  by_cases odd : level.length % 2 = 1
  · have last : level[level.length - 1]? = level.getLast? := (List.getLast?_eq_getElem?).symm
    cases h : level.getLast? with
    | none => simp [List.getLast?_eq_none_iff.mp h] at odd
    | some x => simp [odd, Outcome.index, last, h]
  · simp [odd]

section Generation

variable [Crates]

/-- As in `Block.recursiveGenerationMerkleRoot`, `depth` bounds the frames of the recursion.
The level that is stored is padded, the level the recursion goes on with is not. -/
def recursiveGenerationMerkleRoot :
    (depth : Nat) → List Hash → List (List Hash) → Checked (List (List Hash))
  | 0, _, _ => Outcome.abort
  | depth + 1, vector, merkleTree =>
    if vector.length = 1 then return merkleTree
    else do
      let upperLevel ← upperLevel vector
      if upperLevel.length = 1 then return merkleTree ++ [upperLevel]
      else
        let stored ← pushLast upperLevel
        recursiveGenerationMerkleRoot depth upperLevel (merkleTree ++ [stored])

def generateMerkleTree (txs : List Hash) : Checked (List (List Hash)) := do
  let merkleTransactions ← pushLast txs
  recursiveGenerationMerkleRoot merkleTransactions.length merkleTransactions
    [merkleTransactions]

def new (hashes : List Hash) : Checked MerkleTree := do
  let hashes ← generateMerkleTree hashes
  return ⟨hashes⟩

theorem recursive_generation_merkle_root_eq {depth : Nat} {vector : List Hash}
    (many : 2 ≤ vector.length) (enough : vector.length ≤ depth) (below : List (List Hash)) :
    recursiveGenerationMerkleRoot depth vector below =
      .ok (below ++ Merkle.tower concatenateAndHash
        (Merkle.height (Merkle.level concatenateAndHash vector))
        (Merkle.level concatenateAndHash vector)) := by
  induction depth generalizing vector below with
  | zero => omega
  | succ depth ih =>
    have length := Merkle.level_length concatenateAndHash vector
    rw [recursiveGenerationMerkleRoot, if_neg (by omega), upper_level_eq, Outcome.bind_ok]
    generalize Merkle.level concatenateAndHash vector = upper at length
    by_cases top : upper.length = 1
    · obtain ⟨root, rfl⟩ := List.length_eq_one_iff.mp top
      simp [Merkle.height, Merkle.tower]
    · rw [if_neg top, push_last_eq, Outcome.bind_ok, ih (by omega) (by omega),
        Merkle.height_of_two_le concatenateAndHash (l := upper) (by omega)]
      simp [Merkle.tower]

/-- The leaves are always padded and hashed at least once, also when there is only one. -/
theorem new_eq {ids : List Hash} (nonempty : ids ≠ []) :
    new ids = .ok ⟨Merkle.pad ids :: Merkle.tower concatenateAndHash
      (Merkle.height (Merkle.level concatenateAndHash ids))
      (Merkle.level concatenateAndHash ids)⟩ := by
  have positive := List.length_pos_iff.mpr nonempty
  have length := Merkle.pad_length ids
  have same : Merkle.level concatenateAndHash (Merkle.pad ids) =
      Merkle.level concatenateAndHash ids := by
    rw [Merkle.level, Merkle.pairs_pad, ← Merkle.level]
  rw [new, generateMerkleTree, push_last_eq, Outcome.bind_ok,
    recursive_generation_merkle_root_eq (by omega) (Nat.le_refl _), same]
  rfl

end Generation

/-- `self.hashes[self.hashes.len() - 1][0]` -/
def getMerkleRoot (tree : MerkleTree) : Checked Hash :=
  if tree.hashes.length = 0 then Outcome.panic
  else do
    let root_level ← Outcome.index tree.hashes (tree.hashes.length - 1)
    Outcome.index root_level 0

/-- The entry next to `index`, and whether it comes first. -/
def sibling (level : List Hash) (index : Nat) : Checked (Hash × Bool) :=
  if index % 2 = 0 then do
    let hash ← Outcome.index level (index + 1)
    return (hash, false)
  else do
    let hash ← Outcome.index level (index - 1)
    return (hash, true)

/-- The recursion of the source counts `level` up; here `levels` is the tree from that level
on, and running out of them is `merkle_tree[level]` out of bounds. -/
def getHashFromLevel : (levels : List (List Hash)) → (path : List (Hash × Bool)) → (index : Nat) →
    Checked (List (Hash × Bool))
  | [], _, _ => Outcome.panic
  | level :: above, path, index =>
    if level.length = 1 then do
      let root ← Outcome.index level 0
      return path ++ [(root, false)]
    else do
      let step ← sibling level index
      getHashFromLevel above (path ++ [step]) (index / 2)

def merkleProofOfInclusion (tree : MerkleTree) (txIdToFind : Hash) :
    Checked (Option (List (Hash × Bool))) := do
  let currentLevel ← Outcome.index tree.hashes 0
  match currentLevel.findIdx? (· == txIdToFind) with
  | none => return none
  | some index =>
    let step ← sibling currentLevel index
    let path ← getHashFromLevel (tree.hashes.drop 1) [step] (index / 2)
    return some path

end MerkleTree

/-- Folds the siblings up to the root, which is the last entry; an empty path underflows. -/
def makeMerkleProof [Crates] (hashes : List (Hash × Bool)) (txIdToFind : Hash) : Checked Bool :=
  if hashes.length = 0 then Outcome.panic
  else do
    let rootPosition := hashes.length - 1
    let currentTx := (hashes.take rootPosition).foldl (fun currentTx (hash, hashFirst) =>
      if hashFirst then concatenateAndHash hash currentTx
      else concatenateAndHash currentTx hash) txIdToFind
    let (root, _) ← Outcome.index hashes rootPosition
    return currentTx == root

def Block.merkleProofOfInclusion [Crates] (b : Block) (txIdToFind : Hash) :
    Checked (Option (List (Hash × Bool))) := do
  let merkleTree ← MerkleTree.new b.txIds
  merkleTree.merkleProofOfInclusion txIdToFind

theorem MerkleTree.sibling_eq {level : List Hash} {index : Nat} {step : Hash × Bool}
    (found : Merkle.sibling level index = some step) :
    sibling (Merkle.pad level) index = .ok step := by
  unfold Merkle.sibling at found
  unfold sibling
  split at found <;> rename_i parity <;> obtain ⟨hash, atIndex, rfl⟩ := Option.map_eq_some_iff.mp found
  · rw [if_pos parity, Outcome.index_eq_ok.mpr atIndex]
    rfl
  · rw [if_neg parity, Outcome.index_eq_ok.mpr atIndex]
    rfl

section Answers

variable [Crates]

/-- The root of the stored tree is the root above the first level, not of the ids themselves. -/
theorem MerkleTree.root_eq {ids : List Hash} (nonempty : ids ≠ []) :
    ∃ tree root, MerkleTree.new ids = .ok tree ∧ tree.getMerkleRoot = .ok root ∧
      Merkle.root concatenateAndHash (Merkle.level concatenateAndHash ids) = some root := by
  have positive := List.length_pos_iff.mpr nonempty
  have length := Merkle.level_length concatenateAndHash ids
  obtain ⟨top, climbs, rooted⟩ := Merkle.climb_eq_root concatenateAndHash
    (l := Merkle.level concatenateAndHash ids) (List.length_pos_iff.mp (by omega))
  refine ⟨_, top, new_eq nonempty, ?_, rooted⟩
  have last := Merkle.tower_getLast concatenateAndHash
    (Merkle.height (Merkle.level concatenateAndHash ids)) (Merkle.level concatenateAndHash ids)
  rw [climbs] at last
  generalize Merkle.tower concatenateAndHash _ _ = above at last
  have final : (Merkle.pad ids :: above)[(Merkle.pad ids :: above).length - 1]? = some [top] := by
    rw [← List.getLast?_eq_getElem?, List.getLast?_cons, last]
    rfl
  have hashes : (⟨Merkle.pad ids :: above⟩ : MerkleTree).hashes.length ≠ 0 := by simp
  rw [getMerkleRoot, if_neg hashes, Outcome.index_eq_ok.mpr final]
  rfl

/-- From any level the walk reaches the root, and its steps fold to it. The induction is on the
levels still above; every level but the top is even, so the neighbour always exists. -/
theorem MerkleTree.get_hash_from_level_eq {n : Nat} {level : List Hash} {index : Nat} {x : Hash}
    (levels : Merkle.height level = n) (atIndex : level[index]? = some x)
    (path : List (Hash × Bool)) :
    ∃ steps top, getHashFromLevel (Merkle.tower concatenateAndHash n level) path index =
        .ok (path ++ steps ++ [(top, false)]) ∧
      Merkle.root concatenateAndHash level = some top ∧
      Merkle.fold concatenateAndHash x steps = top := by
  have inside : index < level.length := (List.getElem?_eq_some_iff.mp atIndex).1
  induction n generalizing level index x path with
  | zero =>
    have small : level.length ≤ 1 := by
      simpa using (Nat.clog_le_iff_le_pow (b := 2) (by decide)).mp (Nat.le_of_eq levels)
    obtain ⟨a, rfl⟩ := List.length_eq_one_iff.mp (show level.length = 1 by omega)
    obtain rfl : index = 0 := by simpa using inside
    obtain rfl : a = x := by simpa using atIndex
    exact ⟨[], a, by simp [Merkle.tower, getHashFromLevel, Outcome.index], by simp, rfl⟩
  | succ n ih =>
    have many : 2 ≤ level.length := by
      by_contra few
      rw [Merkle.height, Nat.clog_of_right_le_one (by omega)] at levels
      omega
    have rooted := Merkle.root_level concatenateAndHash many
    have higher := Merkle.height_of_two_le concatenateAndHash many
    have length := Merkle.pad_length level
    obtain ⟨step, found, parent⟩ := Merkle.level_sibling concatenateAndHash atIndex
    obtain ⟨steps, top, walked, root, folded⟩ := ih (by omega) parent (path ++ [step])
      (List.getElem?_eq_some_iff.mp parent).1
    refine ⟨step :: steps, top, ?_, by rw [rooted, root], by rw [Merkle.fold_cons, folded]⟩
    rw [Merkle.tower, getHashFromLevel, if_neg (by omega), sibling_eq found, Outcome.bind_ok,
      walked]
    simp

theorem make_merkle_proof_append (steps : List (Hash × Bool)) (root txId : Hash) (flag : Bool) :
    makeMerkleProof (steps ++ [(root, flag)]) txId =
      .ok (Merkle.fold concatenateAndHash txId steps == root) := by
  have last : (Outcome.index (steps ++ [(root, flag)]) steps.length : Checked _) = .ok (root, flag) := by
    simp [Outcome.index]
  simp [makeMerkleProof, last, Merkle.fold]

/-- A proof is found exactly for the ids of the list; it folds to the root it ends with. -/
theorem MerkleTree.merkle_proof_of_inclusion_eq {ids : List Hash} {tree : MerkleTree}
    (nonempty : ids ≠ []) (built : MerkleTree.new ids = .ok tree) (txId : Hash) :
    (txId ∉ ids ∧ tree.merkleProofOfInclusion txId = .ok none) ∨
    (txId ∈ ids ∧ ∃ steps root, tree.merkleProofOfInclusion txId =
        .ok (some (steps ++ [(root, false)])) ∧
      tree.getMerkleRoot = .ok root ∧ Merkle.fold concatenateAndHash txId steps = root) := by
  obtain ⟨tree', root, built', stored, rooted⟩ := MerkleTree.root_eq nonempty
  obtain rfl : tree = tree' := by simpa [built] using built'
  obtain rfl := Except.ok.inj (built.symm.trans (new_eq nonempty))
  simp only [merkleProofOfInclusion, Outcome.index, List.getElem?_cons_zero, Outcome.bind_ok,
    List.drop_succ_cons, List.drop_zero, Merkle.findIdx?_pad]
  cases found : ids.findIdx? (· == txId) with
  | none =>
    refine .inl ⟨fun member => ?_, rfl⟩
    have absent := List.findIdx?_eq_none_iff.mp found txId member
    simp at absent
  | some index =>
    obtain ⟨inside, here, _⟩ := List.findIdx?_eq_some_iff_getElem.mp found
    have atIndex : ids[index]? = some txId := by
      rw [List.getElem?_eq_getElem inside, beq_iff_eq.mp here]
    obtain ⟨step, neighbour, parent⟩ := Merkle.level_sibling concatenateAndHash atIndex
    obtain ⟨steps, top, walked, top_eq, folded⟩ := get_hash_from_level_eq rfl parent [step]
    obtain rfl : root = top := by simpa [rooted] using top_eq
    refine .inr ⟨List.mem_of_getElem? atIndex, step :: steps, root, ?_, stored, ?_⟩
    · simp [sibling_eq neighbour, walked]
    · rw [Merkle.fold_cons, folded]

/-- The two recursions disagree on a single id, which the stored tree hashes with itself. -/
theorem MerkleTree.stored_root {ids : List Hash} {depth : Nat} (nonempty : ids ≠ [])
    (enough : ids.length ≤ depth) :
    ∃ tree stored root, MerkleTree.new ids = .ok tree ∧ tree.getMerkleRoot = .ok stored ∧
      Block.recursiveGenerationMerkleRoot depth ids = .ok root ∧
      (stored = root ↔ ∀ t, ids = [t] → concatenateAndHash t t = t) := by
  obtain ⟨tree, stored, built, storedEq, above⟩ := MerkleTree.root_eq nonempty
  obtain ⟨root, generated, rooted⟩ := Block.recursive_generation_merkle_root_eq nonempty enough
  refine ⟨tree, stored, root, built, storedEq, generated, ?_⟩
  by_cases many : 2 ≤ ids.length
  · rw [Merkle.root_level concatenateAndHash many, above] at rooted
    refine iff_of_true (Option.some.inj rooted) fun t single => ?_
    simp [single] at many
  · have positive := List.length_pos_iff.mpr nonempty
    obtain ⟨t, rfl⟩ := List.length_eq_one_iff.mp (show ids.length = 1 by omega)
    obtain rfl : t = root := by simpa using rooted
    obtain rfl : concatenateAndHash t t = stored := by
      simpa [Merkle.level, Merkle.pairs] using above
    simp

/-- A path of an accepted block ends with the root of the header, except in a block of a single
transaction. -/
theorem Block.proof_root {b : Block} (accepted : b.Accepted) {txId : Hash}
    {path : List (Hash × Bool)} (proof : b.merkleProofOfInclusion txId = .ok (some path)) :
    path.getLast?.map Prod.fst = some b.blockHeader.merkleRootHash ↔
      ∀ t, b.txIds = [t] → concatenateAndHash t t = t := by
  have nonempty := accepted.tx_ids_ne_nil
  obtain ⟨tree, stored, root, built, storedEq, generated, agree⟩ :=
    MerkleTree.stored_root nonempty (Nat.le_of_eq (List.length_map _))
  have rooted := Block.generate_merkle_root_eq_ok.mpr (Block.accepted_iff.mp accepted).2.1
  obtain rfl := Except.ok.inj (generated.symm.trans rooted)
  rw [Block.merkleProofOfInclusion, built, Outcome.bind_ok] at proof
  rcases MerkleTree.merkle_proof_of_inclusion_eq nonempty built txId with
    ⟨_, absent⟩ | ⟨_, steps, top, found, top_eq, _⟩
  · simp [absent] at proof
  · obtain rfl : stored = top := by simpa [storedEq] using top_eq
    obtain rfl : steps ++ [(stored, false)] = path := by simpa [found] using proof
    simpa using agree

/-- The stored root is the block's root, for lists and for the proofs of accepted blocks, exactly
when the list is not a single id (or that id is its own hash with itself). -/
theorem MerkleTree.agrees_with_block :
    (∀ (ids : List Hash) (depth : Nat), ids ≠ [] → ids.length ≤ depth →
      ∃ tree stored root, MerkleTree.new ids = .ok tree ∧ tree.getMerkleRoot = .ok stored ∧
        Block.recursiveGenerationMerkleRoot depth ids = .ok root ∧
        (stored = root ↔ ∀ t, ids = [t] → concatenateAndHash t t = t)) ∧
    ∀ (b : Block) (txId : Hash) (path : List (Hash × Bool)), b.Accepted →
      b.merkleProofOfInclusion txId = .ok (some path) →
      (path.getLast?.map Prod.fst = some b.blockHeader.merkleRootHash ↔
        ∀ t, b.txIds = [t] → concatenateAndHash t t = t) :=
  ⟨fun _ _ nonempty enough => MerkleTree.stored_root nonempty enough,
    fun _ _ _ accepted proof => Block.proof_root accepted proof⟩

end Answers

theorem MerkleTree.agrees_with_block_pair :
    let ids : List Hash := [U8Array.replicate 32 1, U8Array.replicate 32 2]
    ∃ tree root, @MerkleTree.new Crates.standard ids = .ok tree ∧ tree.getMerkleRoot = .ok root ∧
      @Block.recursiveGenerationMerkleRoot Crates.standard 2 ids = .ok root := by
  intro ids
  obtain ⟨tree, stored, root, built, storedEq, generated, agree⟩ :=
    (@MerkleTree.agrees_with_block Crates.standard).1 ids 2 (by decide) (by decide)
  obtain rfl := agree.mpr (by simp [ids])
  exact ⟨tree, stored, built, storedEq, generated⟩

theorem MerkleTree.disagrees_with_single_block :
    let _ := Crates.standard
    let b := Block.minted 1
    let id := (Transaction.mint 1 []).hash
    b.Accepted ∧ b.txIds = [id] ∧ b.blockHeader.merkleRootHash = id ∧
      (∃ tree stored, MerkleTree.new [id] = .ok tree ∧ tree.getMerkleRoot = .ok stored ∧
        Block.recursiveGenerationMerkleRoot 1 [id] = .ok id ∧ stored ≠ id) ∧
      ∃ path, b.merkleProofOfInclusion id = .ok (some path) ∧
        path.getLast?.map Prod.fst ≠ some b.blockHeader.merkleRootHash := by
  intro _ b id
  have accepted : b.Accepted := Block.minted_accepted (by decide +kernel)
  have moved : concatenateAndHash id id ≠ id := by decide +kernel
  obtain ⟨tree, stored, root, built, storedEq, generated, agree⟩ :=
    MerkleTree.stored_root (List.cons_ne_nil id []) (Nat.le_refl 1)
  obtain rfl : id = root := Except.ok.inj generated
  rcases MerkleTree.merkle_proof_of_inclusion_eq (List.cons_ne_nil id []) built id with
    ⟨absent, _⟩ | ⟨_, steps, top, found, _⟩
  · exact absurd (List.mem_singleton_self id) absent
  have ids : b.txIds = [id] := rfl
  have proof : b.merkleProofOfInclusion id = .ok (some (steps ++ [(top, false)])) := by
    rw [Block.merkleProofOfInclusion, ids, built, Outcome.bind_ok, found]
  refine ⟨accepted, ids, rfl,
    ⟨tree, stored, built, storedEq, generated, fun same => moved (agree.mp same id rfl)⟩,
    _, proof, fun last => moved ((Block.proof_root accepted proof).mp last id rfl)⟩

end BitcoinNode
