import BitcoinNode.Blocks

/-! The block format as a whole: what the decoder accepts is well formed and re-encodes to the
bytes it was read from, and every well-formed block is read back. -/
namespace BitcoinNode

open Decoder

/-- Every length prefix is structurally valid and tells the true length. -/
structure Block.WellFormed (b : Block) : Prop where
  txnCount : b.txnCount.Counts b.txn.length
  transactions : ∀ tx ∈ b.txn, tx.WellFormed

theorem Block.unmarshalling_spans :
    Spans Block.unmarshalling (fun b word => word = b.marshalling ∧ b.WellFormed) := by
  refine .bind BlockHeader.unmarshalling_spans fun header u hu =>
    .bind CompactSizeUint.unmarshalling_spans fun txnCount v hv => .bind (.lift _)
    fun amount _ hn => .bind (.replicate _ Transaction.unmarshalling_spans) fun txn w hw => .pure ?_
  obtain ⟨decoded, rfl⟩ := hn
  obtain ⟨rfl, length, valid⟩ := hw
  exact ⟨by simp [Block.marshalling, hu, hv.1], ⟨hv.2, by simpa [length] using decoded⟩, valid⟩

theorem Block.unmarshalling_reads {b : Block} (valid : b.WellFormed) :
    Reads Block.unmarshalling b.marshalling b := by
  rw [Block.marshalling, List.append_assoc]
  exact .bind (BlockHeader.unmarshalling_reads _) (.bind
    (CompactSizeUint.unmarshalling_reads valid.txnCount.1) (.lift valid.txnCount.2 (.map
      (.replicate _ fun tx member => Transaction.unmarshalling_reads (valid.transactions tx member))
      (.pure b))))

theorem Block.unmarshalling_cuts (accepted : Block.unmarshalling bytes start = .ok (b, stop)) :
    ∃ cut : Nat → Nat, (start ≤ bytes.length → start ≤ cut 0 ∧ cut 0 ≤ bytes.length) ∧
      cut b.txn.length = stop ∧ ∀ (i : Nat) (hi : i < b.txn.length),
        Transaction.unmarshalling bytes (cut i) = .ok (b.txn[i], cut (i + 1)) := by
  obtain ⟨header, p, readHeader, rest⟩ := bind_eq_ok.mp accepted
  obtain ⟨txnCount, q, readCount, rest⟩ := bind_eq_ok.mp rest
  obtain ⟨amount, r, readAmount, rest⟩ := bind_eq_ok.mp rest
  obtain ⟨txn, s, readTxn, rest⟩ := bind_eq_ok.mp rest
  cases rest
  obtain ⟨cut, first, last, each⟩ := replicate_cuts readTxn
  refine ⟨cut, fun inside => ?_, last, each⟩
  obtain ⟨startP, insideP, _⟩ := BlockHeader.unmarshalling_spans _ _ _ _ inside readHeader
  obtain ⟨pq, insideQ, _⟩ := CompactSizeUint.unmarshalling_spans _ _ _ _ insideP readCount
  obtain ⟨qr, insideR, _⟩ := Spans.lift _ _ _ _ _ insideQ readAmount
  omega

/-- A decoded block is the bytes it was read from, and so is each of its transactions: a
transaction id is the double hash of received bytes. -/
theorem Block.unmarshalling_preserves_bytes [Crates] {bytes : List UInt8} {start stop : Nat} {b : Block}
    (inside : start ≤ bytes.length) (accepted : Block.unmarshalling bytes start = .ok (b, stop)) :
    start ≤ stop ∧ stop ≤ bytes.length ∧ b.marshalling = slice bytes start stop ∧
      ∃ cut : Nat → Nat, start ≤ cut 0 ∧ cut b.txn.length = stop ∧
        ∀ (i : Nat) (hi : i < b.txn.length),
          cut i ≤ cut (i + 1) ∧ cut (i + 1) ≤ bytes.length ∧
          Transaction.unmarshalling bytes (cut i) = .ok (b.txn[i], cut (i + 1)) ∧
          b.txn[i].marshalling = slice bytes (cut i) (cut (i + 1)) ∧
          b.txn[i].hash = sha256d (slice bytes (cut i) (cut (i + 1))) := by
  obtain ⟨forward, bound, same, _⟩ := Block.unmarshalling_spans _ _ _ _ inside accepted
  obtain ⟨cut, first, last, each⟩ := Block.unmarshalling_cuts accepted
  refine ⟨forward, bound, same.symm, cut, (first inside).1, last, fun i hi => ?_⟩
  obtain ⟨_, order, within, slice_eq, _⟩ :=
    Transaction.unmarshalling_spans.cuts (first inside).2 each i hi
  exact ⟨order, within, each i hi, slice_eq.symm, by rw [Transaction.hash, slice_eq]⟩

/-- A block of one coinbase transaction whose count takes three bytes where one would do. -/
def Block.padded : Block :=
  ⟨⟨1, U8Array.replicate 32 7, U8Array.replicate 32 9, 5, 6, 7⟩, ⟨[0xfd, 1, 0]⟩,
    [.mint 1 [⟨50, ⟨[1]⟩, ⟨[0x51]⟩⟩]]⟩

theorem Transaction.mint_wellFormed (tag : UInt8) {txOut : List TxOut}
    (count : (CompactSizeUint.new txOut.length).Counts txOut.length)
    (outputs : ∀ txout ∈ txOut, txout.WellFormed) : (Transaction.mint tag txOut).WellFormed := by
  constructor
  case txinCount => exact ⟨⟨1, [], rfl, rfl⟩, rfl⟩
  case inputs =>
    intro txin member
    obtain rfl := List.mem_singleton.mp member
    exact ⟨⟨⟨4, [], rfl, rfl⟩, rfl⟩, rfl, by simp, by simp⟩
  case nonempty => exact List.cons_ne_nil _ _
  case coinbase => exact fun _ _ _ => rfl
  case txoutCount => exact count
  case outputs => exact outputs

theorem Transaction.pay_wellFormed {txId : Hash} {index : UInt32} {txOut : List TxOut}
    (spends : Outpoint.isACoinbaseOutpoint ⟨txId, index⟩ = false)
    (count : (CompactSizeUint.new txOut.length).Counts txOut.length)
    (outputs : ∀ txout ∈ txOut, txout.WellFormed) : (pay txId index txOut).WellFormed := by
  constructor
  case txinCount => exact ⟨⟨1, [], rfl, rfl⟩, rfl⟩
  case inputs =>
    intro txin member
    obtain rfl := List.mem_singleton.mp member
    exact ⟨⟨⟨0, [], rfl, rfl⟩, rfl⟩, spends.symm, by simp, by simp⟩
  case nonempty => exact List.cons_ne_nil _ _
  case coinbase => exact fun _ _ _ => rfl
  case txoutCount => exact count
  case outputs => exact outputs

theorem Block.padded_wellFormed : Block.padded.WellFormed := by
  refine ⟨⟨⟨0xfd, [1, 0], rfl, rfl⟩, rfl⟩, fun tx member => ?_⟩
  obtain rfl := List.mem_singleton.mp member
  refine Transaction.mint_wellFormed 1 ⟨⟨1, [], rfl, rfl⟩, rfl⟩ fun txout member => ?_
  obtain rfl := List.mem_singleton.mp member
  exact ⟨⟨1, [], rfl, rfl⟩, rfl⟩

theorem Block.mined_wellFormed {previous root : Hash} {tx : Transaction} (valid : tx.WellFormed) :
    (Block.mined previous root [tx]).WellFormed := by
  refine ⟨⟨⟨1, [], rfl, rfl⟩, rfl⟩, fun tx' member => ?_⟩
  obtain rfl := List.mem_singleton.mp member
  exact valid

theorem Block.minted_wellFormed [Crates] (tag : UInt8) : (Block.minted tag).WellFormed :=
  Block.mined_wellFormed (Transaction.mint_wellFormed tag ⟨⟨0, [], rfl, rfl⟩, rfl⟩ (by simp))

theorem Block.unmarshalling_preserves_bytes_padded :
    let front : List UInt8 := [0xaa]
    let bytes := front ++ Block.padded.marshalling ++ [0xbb]
    let stop := front.length + Block.padded.marshalling.length
    Block.unmarshalling bytes front.length = .ok (Block.padded, stop) ∧
      Block.padded.marshalling = slice bytes front.length stop := by
  intro front bytes stop
  have accepted := Block.unmarshalling_reads Block.padded_wellFormed front [0xbb]
  exact ⟨accepted, (@Block.unmarshalling_preserves_bytes Crates.standard _ _ _ _
    (by simp) accepted).2.2.1⟩

/-- A well-formed block is read back from its encoding, whatever surrounds it. -/
theorem Block.marshalling_round_trip {b : Block} (valid : b.WellFormed) (front back : List UInt8) :
    Block.unmarshalling (front ++ b.marshalling ++ back) front.length =
      .ok (b, front.length + b.marshalling.length) :=
  Block.unmarshalling_reads valid front back

theorem Block.marshalling_round_trip_padded :
    let front : List UInt8 := [1, 2]
    Block.unmarshalling (front ++ Block.padded.marshalling ++ [3]) front.length =
      .ok (Block.padded, front.length + Block.padded.marshalling.length) :=
  Block.marshalling_round_trip Block.padded_wellFormed [1, 2] [3]

end BitcoinNode
