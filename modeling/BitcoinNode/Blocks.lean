import BitcoinNode.Transactions
import BitcoinNode.Lib.Merkle

/-! Block headers and blocks: wire format, proof of work, Merkle root and validation. -/
namespace BitcoinNode

open Decoder

structure BlockHeader where
  version : Int32
  previousBlockHeaderHash : Hash
  merkleRootHash : Hash
  time : UInt32
  nBits : UInt32
  nonce : UInt32
  deriving DecidableEq

structure Block where
  blockHeader : BlockHeader
  txnCount : CompactSizeUint
  txn : List Transaction
  deriving DecidableEq

namespace BlockHeader

def unmarshalling : Decoder String BlockHeader := do
  require 80 "The received bytes are not enough to deserialize the block header message"
  let version ← array 4
  let previousBlockHeaderHash ← array 32
  let merkleRootHash ← array 32
  let time ← array 4
  let nBits ← array 4
  let nonce ← array 4
  return ⟨i32FromLeBytes version, previousBlockHeaderHash, merkleRootHash,
    u32FromLeBytes time, u32FromLeBytes nBits, u32FromLeBytes nonce⟩

def marshalling (h : BlockHeader) : List UInt8 :=
  i32ToLeBytes h.version ++ h.previousBlockHeaderHash.val ++ h.merkleRootHash.val
    ++ u32ToLeBytes h.time ++ u32ToLeBytes h.nBits ++ u32ToLeBytes h.nonce

def hash [Crates] (h : BlockHeader) : Hash := sha256d h.marshalling

/-- `target[initial_mantissa_position + i] = mantissa[i]` for the three mantissa bytes; an
exponent below 3 indexes past the 32 bytes and panics. -/
def target (firstByte : Nat) (mantissa : List UInt8) : Checked (List UInt8) :=
  (mantissa.zipIdx).foldlM (fun target (byte, i) => Outcome.assign target (32 - firstByte + i) byte)
    (List.replicate 32 0)

/-- Proof of work: the reversed hash is compared with the target as an array. -/
def validate [Crates] (h : BlockHeader) : Checked Bool := do
  let n_bits_bytes := (u32ToLeBytes h.nBits).reverse
  let firstByte ← Outcome.index n_bits_bytes 0
  if 32 < firstByte.toNat then
    return false
  else
    let target ← target firstByte.toNat (n_bits_bytes.drop 1)
    return h.hash.reverse.val < target

def isSameMerkleRootHash (h : BlockHeader) (receivedHash : Hash) : Bool :=
  h.merkleRootHash == receivedHash

@[simp] theorem marshalling_length (h : BlockHeader) : h.marshalling.length = 80 := by
  simp [marshalling]

theorem unmarshalling_spans : Spans unmarshalling (fun h word => word = h.marshalling) := by
  refine .bind (.require _ _) fun _ _ hw => .bind (.array 4) fun version a ha =>
    .bind (.array 32) fun previous b hb => .bind (.array 32) fun root c hc =>
    .bind (.array 4) fun time d hd => .bind (.array 4) fun nBits e he =>
    .bind (.array 4) fun nonce f hf => .pure ?_
  simp [marshalling, hw, ← ha, ← hb, ← hc, ← hd, ← he, ← hf]

theorem unmarshalling_reads (h : BlockHeader) : Reads unmarshalling h.marshalling h := by
  refine .require 80 _ ?_ (by simp)
  have word : h.marshalling = i32ToLeBytes h.version ++ (h.previousBlockHeaderHash.val ++
      (h.merkleRootHash.val ++ (u32ToLeBytes h.time ++ (u32ToLeBytes h.nBits ++
        u32ToLeBytes h.nonce)))) := by
    simp [marshalling]
  rw [word]
  refine .bind (.array ⟨i32ToLeBytes h.version, by simp⟩) (.bind (.array _) (.bind (.array _)
    (.bind (.array ⟨u32ToLeBytes h.time, by simp⟩) (.bind
      (.array ⟨u32ToLeBytes h.nBits, by simp⟩)
      (.map (.array ⟨u32ToLeBytes h.nonce, by simp⟩) ?_)))))
  simpa using Reads.pure h

end BlockHeader

def concatenateAndHash [Crates] (firstHash secondHash : Hash) : Hash :=
  sha256d (firstHash.val ++ secondHash.val)

section MerkleLevel

variable [Crates]

/-- The variables of the loop over one level. -/
structure LevelLoop where
  upperLevel : List Hash
  amountHashs : Nat
  currentPosition : Nat

/-- `vector[current_position - 1]`; the subtraction underflows at 0. -/
def previous (vector : List Hash) (currentPosition : Nat) : Checked Hash :=
  if currentPosition = 0 then Outcome.panic else Outcome.index vector (currentPosition - 1)

def levelStep (vector : List Hash) (s : LevelLoop) (tx : Hash) : Checked LevelLoop :=
  if s.amountHashs + 1 = 2 then do
    let before ← previous vector s.currentPosition
    return ⟨s.upperLevel ++ [concatenateAndHash before tx], 0, s.currentPosition + 1⟩
  else
    return ⟨s.upperLevel, s.amountHashs + 1, s.currentPosition + 1⟩

/-- An odd level hashes its last element with itself. -/
def levelEnd (vector : List Hash) (s : LevelLoop) : Checked (List Hash) :=
  if vector.length % 2 ≠ 0 then do
    let last ← previous vector s.currentPosition
    return s.upperLevel ++ [concatenateAndHash last last]
  else
    return s.upperLevel

def upperLevel (vector : List Hash) : Checked (List Hash) := do
  let s ← vector.foldlM (levelStep vector) ⟨[], 0, 0⟩
  levelEnd vector s

/-- The loop invariant: after an even number of elements, `rest` is still to be paired. -/
theorem level_loop (vector front rest acc : List Hash) (split : vector = front ++ rest)
    (even : front.length % 2 = 0) :
    (rest.foldlM (levelStep vector) ⟨acc, 0, front.length⟩ >>= levelEnd vector : Checked _) =
      .ok (acc ++ Merkle.level concatenateAndHash rest) := by
  induction rest using Merkle.pairs.induct generalizing front acc with
  | case1 a b rest ih =>
    have here : vector[front.length]? = some a := by simp [split]
    have step := ih (front ++ [a, b]) (acc ++ [concatenateAndHash a b]) (by simp [split])
      (by simp; omega)
    simp only [List.length_append, List.length_cons, List.length_nil, Nat.zero_add] at step
    simpa [levelStep, previous, Outcome.index, here, Merkle.level, Merkle.pairs] using step
  | case2 a =>
    have here : vector[front.length]? = some a := by simp [split]
    have odd : vector.length % 2 = 1 := by simp [split]; omega
    simp [levelStep, levelEnd, previous, Outcome.index, here, odd, Merkle.level, Merkle.pairs]
  | case3 =>
    have parity : vector.length % 2 = 0 := by simpa [split] using even
    simp [levelEnd, parity, Merkle.level, Merkle.pairs]

theorem upper_level_eq (vector : List Hash) :
    upperLevel vector = .ok (Merkle.level concatenateAndHash vector) :=
  level_loop vector [] vector [] rfl rfl

end MerkleLevel

namespace Block

variable [Crates]

/-- The recursion of the source has no bound; here it is cut off at `depth` frames, and running
out of them is the abort of an exhausted stack. -/
def recursiveGenerationMerkleRoot : (depth : Nat) → List Hash → Checked Hash
  | 0, _ => Outcome.abort
  | depth + 1, vector =>
    if vector.length = 1 then Outcome.index vector 0
    else do
      let upperLevel ← upperLevel vector
      recursiveGenerationMerkleRoot depth upperLevel

theorem recursive_generation_merkle_root_eq {depth : Nat} {vector : List Hash}
    (nonempty : vector ≠ []) (enough : vector.length ≤ depth) :
    ∃ root, recursiveGenerationMerkleRoot depth vector = .ok root ∧
      Merkle.root concatenateAndHash vector = some root := by
  have positive := List.length_pos_iff.mpr nonempty
  induction depth generalizing vector with
  | zero => omega
  | succ depth ih =>
    rw [recursiveGenerationMerkleRoot]
    by_cases single : vector.length = 1
    · obtain ⟨a, rfl⟩ := List.length_eq_one_iff.mp single
      exact ⟨a, by simp [Outcome.index], by simp⟩
    · rw [if_neg single, upper_level_eq, Outcome.bind_ok,
        Merkle.root_level concatenateAndHash (by omega)]
      have length := Merkle.level_length concatenateAndHash vector
      exact ih (List.length_pos_iff.mp (by omega)) (by omega) (by omega)

theorem recursive_generation_merkle_root_nil (depth : Nat) :
    recursiveGenerationMerkleRoot depth [] = Outcome.abort := by
  induction depth with
  | zero => rfl
  | succ depth ih =>
    rw [recursiveGenerationMerkleRoot, upper_level_eq]
    simpa [Merkle.level, Merkle.pairs] using ih

def unmarshalling : Decoder String Block := do
  let blockHeader ← BlockHeader.unmarshalling
  let txnCount ← CompactSizeUint.unmarshalling
  let amountTransaction ← lift txnCount.decodedValue
  let txn ← Transaction.unmarshallingTransactions amountTransaction
  return ⟨blockHeader, txnCount, txn⟩

def marshalling (b : Block) : List UInt8 :=
  b.blockHeader.marshalling ++ b.txnCount.marshalling ++ b.txn.flatMap Transaction.marshalling

def hash (b : Block) : Hash := b.blockHeader.hash

def txIds (b : Block) : List Hash := b.txn.map Transaction.hash

def generateMerkleRoot (b : Block) : Checked Hash :=
  recursiveGenerationMerkleRoot b.txn.length b.txIds

def validate (b : Block) : Checked (Bool × String) := do
  let proofOfWork ← b.blockHeader.validate
  if !proofOfWork then
    return (false, "The block does not meet the proof of work")
  else
    let merkleRootHash ← b.generateMerkleRoot
    if !b.blockHeader.isSameMerkleRootHash merkleRootHash then
      return (false, "The merkle root generated by the block does not match the one in the header")
    else if 1048576 < b.marshalling.length then
      return (false, "The block exceeds 1 MB")
    else
      return (true, "Valid block")

/-- `validate().0` is true. -/
def Accepted (b : Block) : Prop := ∃ text, b.validate = .ok (true, text)

/-- A Merkle root is generated exactly when there is a transaction. -/
theorem generate_merkle_root_eq_ok {b : Block} {root : Hash} :
    b.generateMerkleRoot = .ok root ↔ Merkle.root concatenateAndHash b.txIds = some root := by
  have length : b.txIds.length = b.txn.length := List.length_map _
  by_cases empty : b.txIds = []
  · simp [generateMerkleRoot, empty, recursive_generation_merkle_root_nil, Outcome.abort,
      Merkle.root, Merkle.climb, Merkle.height]
  · obtain ⟨top, generated, rooted⟩ :=
      recursive_generation_merkle_root_eq empty (Nat.le_of_eq length)
    rw [generateMerkleRoot, generated, rooted]
    simp

/-- Acceptance is proof of work, a matching Merkle root (so at least one transaction) and size. -/
theorem accepted_iff {b : Block} : b.Accepted ↔
    b.blockHeader.validate = .ok true ∧
      Merkle.root concatenateAndHash b.txIds = some b.blockHeader.merkleRootHash ∧
      b.marshalling.length ≤ 1048576 := by
  rw [← generate_merkle_root_eq_ok, Accepted, validate]
  rcases b.blockHeader.validate with e | (_ | _)
  · simp
  · simp
  · rcases b.generateMerkleRoot with e | root
    · simp
    · by_cases same : b.blockHeader.merkleRootHash = root
      · have check : b.blockHeader.isSameMerkleRootHash root = true := beq_iff_eq.mpr same
        by_cases small : 1048576 < b.marshalling.length
        · simp [check, small]
        · simp [check, small, same, Nat.le_of_not_lt small]
      · have check : b.blockHeader.isSameMerkleRootHash root = false :=
          beq_eq_false_iff_ne.mpr same
        have differ : root ≠ b.blockHeader.merkleRootHash := Ne.symm same
        simp [check, -Subtype.mk.injEq, differ]

theorem Accepted.tx_ids_ne_nil {b : Block} (accepted : b.Accepted) : b.txIds ≠ [] := by
  intro empty
  have rooted := (accepted_iff.mp accepted).2.1
  simp [empty, Merkle.root, Merkle.climb, Merkle.height] at rooted

end Block

/-- A block with the easiest target, for concrete runs. -/
def Block.mined (previous root : Hash) (txn : List Transaction) : Block :=
  ⟨⟨1, previous, root, 0, 0x20ffffff, 0⟩, .new txn.length, txn⟩

def Block.minted [Crates] (tag : UInt8) : Block :=
  .mined (U8Array.replicate 32 tag) (Transaction.mint tag []).hash [.mint tag []]

theorem Block.mined_accepted [Crates] {previous : Hash} {tx : Transaction}
    (work : (Block.mined previous tx.hash [tx]).blockHeader.validate = .ok true)
    (small : tx.marshalling.length ≤ 1000) : (Block.mined previous tx.hash [tx]).Accepted := by
  refine Block.accepted_iff.mpr ⟨work, Merkle.root_singleton _ _, ?_⟩
  have count : (CompactSizeUint.new 1).marshalling.length = 1 := by decide
  simp only [Block.marshalling, Block.mined, List.length_append, BlockHeader.marshalling_length,
    List.length_singleton, List.flatMap_singleton, count]
  omega

theorem Block.minted_accepted [Crates] {tag : UInt8}
    (work : (Block.minted tag).blockHeader.validate = .ok true) : (Block.minted tag).Accepted := by
  have size : (Transaction.mint tag []).marshalling.length = 55 := rfl
  exact Block.mined_accepted work (by omega)

end BitcoinNode
