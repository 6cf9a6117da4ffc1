import BitcoinNode.Blockchain
import BitcoinNode.HexStrings
import BitcoinNode.MerkleTree

/-! The wallet's proof of inclusion: from two hexadecimal strings to a verified Merkle path. -/
namespace BitcoinNode

structure Node where
  blockchain : Blockchain

structure Wallet where
  node : Node

section Proofs

variable [Crates]

def Node.merkleProofOfInclusion (node : Node) (blockHash txHash : Hash) :
    Outcome NodeCustomErrors (Option (List (Hash × Bool))) :=
  match node.blockchain.blocks.get blockHash with
  | some block => Outcome.widen (block.merkleProofOfInclusion txHash)
  | none => Outcome.fail (.OtherError "Block hash not found")

def Wallet.txProofOfInclusion (wallet : Wallet) (blockHashHex txHashHex : String) :
    Outcome String Bool := do
  let blockHash ← stringToBytes blockHashHex
  let txHash ← stringToBytes txHashHex
  let blockHash := blockHash.reverse
  let txHash := txHash.reverse
  let poi ← Outcome.mapErr NodeCustomErrors.fmt
    (wallet.node.merkleProofOfInclusion blockHash txHash)
  match poi with
  | some hashes => Outcome.widen (makeMerkleProof hashes txHash)
  | none => return false

def BlocksKeyed (blocks : HashMap Hash Block) : Prop :=
  ∀ hash b, blocks.get hash = some b → b.hash = hash

theorem Wallet.tx_proof_of_inclusion_of_block {wallet : Wallet} {b : Block} {t : Hash}
    {poi : Option (List (Hash × Bool))}
    (stored : wallet.node.blockchain.blocks.get b.hash = some b)
    (answered : b.merkleProofOfInclusion t = .ok poi) :
    wallet.txProofOfInclusion b.hexHash (bytesToHexHash t) =
      match poi with
      | some hashes => Outcome.widen (makeMerkleProof hashes t)
      | none => .ok false := by
  simp only [txProofOfInclusion, Block.hexHash, string_to_bytes_hex_hash, Outcome.bind_ok,
    U8Array.reverse_reverse, Node.merkleProofOfInclusion, stored, answered, Outcome.widen_ok,
    Outcome.mapErr_ok]
  cases poi <;> rfl

/-- The wallet proves exactly the transactions of a stored block; the path ends with the root of
the block's tree. -/
theorem Wallet.proves_inclusion {wallet : Wallet} {b : Block} {hash : Hash}
    (keyed : BlocksKeyed wallet.node.blockchain.blocks)
    (stored : wallet.node.blockchain.blocks.get hash = some b) (nonempty : b.txn ≠ []) (t : Hash) :
    (t ∈ b.txIds →
      wallet.txProofOfInclusion b.hexHash (bytesToHexHash t) = .ok true ∧
      ∃ tree path root, MerkleTree.new b.txIds = .ok tree ∧
        b.merkleProofOfInclusion t = .ok (some path) ∧ tree.getMerkleRoot = .ok root ∧
        path.getLast?.map Prod.fst = some root) ∧
    (t ∉ b.txIds → wallet.txProofOfInclusion b.hexHash (bytesToHexHash t) = .ok false) := by
  obtain rfl := keyed hash b stored
  have ids : b.txIds ≠ [] := by simpa [Block.txIds] using nonempty
  obtain ⟨tree, _, built, _, _⟩ := MerkleTree.root_eq ids
  have answer : b.merkleProofOfInclusion t = tree.merkleProofOfInclusion t := by
    rw [Block.merkleProofOfInclusion, built, Outcome.bind_ok]
  rcases MerkleTree.merkle_proof_of_inclusion_eq ids built t with
    ⟨absent, none⟩ | ⟨present, steps, root, found, stored_root, folded⟩
  · refine ⟨fun present => absurd present absent, fun _ => ?_⟩
    rw [Wallet.tx_proof_of_inclusion_of_block stored (answer.trans none)]
  · refine ⟨fun _ => ⟨?_, tree, _, root, built, answer.trans found, stored_root, by simp⟩,
      fun absent => absurd present absent⟩
    rw [Wallet.tx_proof_of_inclusion_of_block stored (answer.trans found)]
    simp [make_merkle_proof_append, folded]

end Proofs

/-- A wallet over one block. -/
def Wallet.storing [Crates] (b : Block) : Wallet := ⟨⟨⟨[], (∅ : HashMap Hash Block).insert b.hash b, ∅, ∅⟩⟩⟩

theorem Wallet.storing_keyed [Crates] (b : Block) : BlocksKeyed (storing b).node.blockchain.blocks := by
  intro hash other stored
  by_cases same : hash = b.hash
  · subst same
    exact congrArg Block.hash (Option.some.inj ((HashMap.get_insert _ _ _).symm.trans stored)).symm
  · have absent := (HashMap.get_insert_of_ne ∅ same b).symm.trans stored
    simp at absent

/-- Of a block with three transactions the second is proved, by a path of two hashes and the root, and one that is
not in the block is not. -/
theorem Wallet.proves_inclusion_second :
    let _ := Crates.standard
    let txn := [Transaction.mint 1 [], .mint 2 [], .mint 3 []]
    let b := Block.mined (U8Array.replicate 32 0) (U8Array.replicate 32 0) txn
    (Wallet.storing b).txProofOfInclusion b.hexHash (Transaction.mint 2 []).hexHash = .ok true ∧
      (∃ tree path root, MerkleTree.new b.txIds = .ok tree ∧
        b.merkleProofOfInclusion (Transaction.mint 2 []).hash = .ok (some path) ∧ tree.getMerkleRoot = .ok root ∧
        path.getLast?.map Prod.fst = some root) ∧
      (Wallet.storing b).txProofOfInclusion b.hexHash (Transaction.mint 4 []).hexHash = .ok false := by
  intro _ txn b
  have proves := Wallet.proves_inclusion (Wallet.storing_keyed b) (HashMap.get_insert _ _ _) (List.cons_ne_nil _ _)
  have present : (Transaction.mint 2 []).hash ∈ b.txIds := List.mem_cons_of_mem _ List.mem_cons_self
  have absent : (Transaction.mint 4 []).hash ∉ b.txIds := by decide +kernel
  obtain ⟨proved, path⟩ := (proves _).1 present
  exact ⟨proved, path, (proves _).2 absent⟩

end BitcoinNode
