import BitcoinNode.BlockCodec
import BitcoinNode.Lib.DecoderPanics

/-! Malformed blocks and transactions. The fixed-size guards turn some of them into errors; the
others run into a slice or an index past the end and panic. `Cut` says which. -/
namespace BitcoinNode

open Decoder

/-- The first byte announces more bytes than are left. -/
def CompactSizeUint.Cut (rest : List UInt8) : Prop :=
  ∃ firstByte more, rest = firstByte :: more ∧ more.length < extra firstByte

/-- A count that is cut itself, or what goes wrong after a count of that value. -/
def Counted (after : Nat → List UInt8 → Prop) (rest : List UInt8) : Prop :=
  CompactSizeUint.Cut rest ∨ ∃ (count : CompactSizeUint) (n : Nat) (more : List UInt8),
    count.Counts n ∧ rest = count.marshalling ++ more ∧ after n more

/-- Past the guard of 41 bytes: a script that does not fit in front of the sequence, or one of a
coinbase input that has no room for the height. -/
def TxIn.Cut (rest : List UInt8) : Prop :=
  41 ≤ rest.length ∧ ∃ (previousOutput : Outpoint) (more : List UInt8),
    rest = previousOutput.marshalling ++ more ∧
      Counted (fun scriptLen script =>
        if previousOutput.isACoinbaseOutpoint then
          scriptLen ≤ 100 ∧ (scriptLen < 4 ∨ script.length < scriptLen + 4)
        else script.length < scriptLen + 4) more

/-- Past the guard of 9 bytes: a script that does not fit. -/
def TxOut.Cut (rest : List UInt8) : Prop :=
  9 ≤ rest.length ∧
    Counted (fun amountBytes script => script.length < amountBytes) (rest.drop 8)

/-- No guard stands before the version, after the list of inputs, which may be empty, or before
the lock time. -/
def Transaction.Cut (rest : List UInt8) : Prop :=
  rest.length < 4 ∨ Counted (fun amountTxin inputs =>
    Repeated TxIn.marshalling TxIn.WellFormed TxIn.Cut amountTxin inputs ∨
      ∃ (txIn : List TxIn) (more : List UInt8),
        (txIn.length = amountTxin ∧ ∀ txin ∈ txIn, txin.WellFormed) ∧
        inputs = txIn.flatMap TxIn.marshalling ++ more ∧
        (amountTxin = 0 ∨ (∃ first ∈ txIn.head?, ¬(first.isCoinbase ∧ amountTxin ≠ 1)) ∧
          Counted (fun amountTxout outputs =>
            Repeated TxOut.marshalling TxOut.WellFormed TxOut.Cut amountTxout outputs ∨
              ∃ (txOut : List TxOut) (more : List UInt8),
                (txOut.length = amountTxout ∧ ∀ txout ∈ txOut, txout.WellFormed) ∧
                outputs = txOut.flatMap TxOut.marshalling ++ more ∧ more.length < 4) more))
    (rest.drop 4)

def Block.Cut (bytes : List UInt8) : Prop :=
  ∃ (blockHeader : BlockHeader) (more : List UInt8), bytes = blockHeader.marshalling ++ more ∧
    Counted (Repeated Transaction.marshalling Transaction.WellFormed Transaction.Cut) more

theorem CompactSizeUint.unmarshalling_format :
    Format unmarshalling marshalling CompactSizeUint.Structural :=
  ⟨unmarshalling_spans, fun _ => unmarshalling_reads⟩

theorem CompactSizeUint.unmarshalling_panics :
    Panics least unmarshalling CompactSizeUint.Cut := by
  have tail (firstByte : UInt8) (n : Nat) (width : extra firstByte = n) :
      Panics (max (max least 1) 1) (do let rest ← take n; return ⟨[firstByte] ++ rest⟩ :
        Decoder String CompactSizeUint) (fun more => more.length < extra firstByte) := by
    rw [width]
    exact (Panics.take n fun rest => .pure _).congr fun _ => or_iff_left id
  have tagged (value : List UInt8) (single : value.length = 1) :
      Panics (max (max least 1) 1) (do
        let firstByte ← Decoder.lift (Outcome.index value 0)
        if firstByte = 0xfd then let rest ← take 2; return ⟨value ++ rest⟩
        else if firstByte = 0xfe then let rest ← take 4; return ⟨value ++ rest⟩
        else if firstByte = 0xff then let rest ← take 8; return ⟨value ++ rest⟩
        else return ⟨value⟩ : Decoder String CompactSizeUint)
        (fun more => ∃ firstByte, value = [firstByte] ∧ more.length < extra firstByte) := by
    obtain ⟨firstByte, rfl⟩ := List.length_eq_one_iff.mp single
    apply Panics.lift (a := firstByte) rfl
    apply Panics.congr (P := fun more => more.length < extra firstByte)
    · split_ifs with fd fe ff
      · exact tail firstByte 2 (by simp [extra, fd])
      · exact tail firstByte 4 (by simp [extra, fe])
      · exact tail firstByte 8 (by simp [extra, ff])
      · exact (Panics.pure _).congr fun _ => by simp [extra, fd, fe, ff]
    · simp
  refine (Panics.require 1 _ (.bind (.take 1) (.takes 1)
    fun value single => (tagged value single).longer (by simp [single]))).congr fun rest => ?_
  constructor
  · rintro ⟨nonempty, short | ⟨value, more, _, shape, firstByte, rfl, cut⟩⟩
    · omega
    · exact ⟨firstByte, more, shape, cut⟩
  · rintro ⟨firstByte, more, rfl, cut⟩
    exact ⟨by simp, .inr ⟨[firstByte], more, rfl, rfl, firstByte, rfl, cut⟩⟩

theorem Panics.counted {f : CompactSizeUint → Nat → Decoder String β}
    {after : Nat → List UInt8 → Prop}
    (next : ∀ count n, count.Counts n → Panics least (f count n) (after n)) :
    Panics least (CompactSizeUint.unmarshalling >>= fun count =>
      Decoder.lift count.decodedValue >>= f count) (Counted after) := by
  have value (count : CompactSizeUint) (valid : count.Structural) :
      Panics (max least count.marshalling.length) (Decoder.lift count.decodedValue >>= f count)
        (fun more => ∃ n, count.Counts n ∧ after n more) := by
    obtain ⟨n, decoded, _⟩ := CompactSizeUint.decoded_value_structural valid
    have only (m : Nat) : count.Counts m ↔ m = n := by
      constructor
      · exact fun counts => Except.ok.inj (counts.2.symm.trans decoded)
      · rintro rfl; exact ⟨valid, decoded⟩
    refine .lift decoded (((next count n ((only n).mpr rfl)).longer (Nat.le_max_left _ _)).congr ?_)
    simp [only]
  refine (Panics.bind CompactSizeUint.unmarshalling_format CompactSizeUint.unmarshalling_panics
    value).congr fun rest => or_congr_right ?_
  constructor
  · rintro ⟨count, more, _, shape, n, counts, holds⟩
    exact ⟨count, n, more, counts, shape, holds⟩
  · rintro ⟨count, n, more, counts, shape, holds⟩
    exact ⟨count, more, counts.1, shape, n, counts, holds⟩

/-- A count at the front is read, or reading it fails, with a panic exactly if it is cut. -/
theorem CompactSizeUint.front_cases (payload : List UInt8) :
    (∃ (count : CompactSizeUint) (n : Nat) (more : List UInt8), count.Counts n ∧
      payload = count.marshalling ++ more ∧
      unmarshalling payload 0 = .ok (count, count.marshalling.length)) ∨
    ∃ failure, unmarshalling payload 0 = .error failure ∧
      (Outcome.Returns (.error failure : Outcome String Unit) ↔ ¬CompactSizeUint.Cut payload) := by
  have returns := CompactSizeUint.unmarshalling_panics.returns_iff payload
  rcases read : unmarshalling payload 0 with failure | ⟨count, stop⟩
  · refine .inr ⟨failure, rfl, ?_⟩
    rw [← returns, read, Outcome.returns_iff, Outcome.returns_iff]
    simp [Outcome.panic, Outcome.abort]
  · obtain ⟨valid, rfl, shape⟩ := (CompactSizeUint.unmarshalling_format.ok_iff (Nat.zero_le _)).mp read
    obtain ⟨n, decoded, _⟩ := CompactSizeUint.decoded_value_structural valid
    exact .inl ⟨count, n, _, ⟨valid, decoded⟩, shape, by rw [Nat.zero_add]⟩

theorem counted_iff {after : Nat → List UInt8 → Prop} {count : CompactSizeUint} {n : Nat}
    {more : List UInt8} (counts : count.Counts n) :
    Counted after (count.marshalling ++ more) ↔ after n more := by
  have read := CompactSizeUint.unmarshalling_reads counts.1 [] more
  rw [List.nil_append, List.length_nil, Nat.zero_add] at read
  constructor
  · rintro (cut | ⟨count', n', more', counts', shape, holds⟩)
    · exact absurd cut ((CompactSizeUint.unmarshalling_panics.returns_iff _).mp (.inl ⟨_, read⟩))
    · have read' := CompactSizeUint.unmarshalling_reads counts'.1 [] more'
      rw [List.nil_append, List.length_nil, Nat.zero_add, ← shape, read] at read'
      obtain rfl := (Prod.mk.inj (Except.ok.inj read')).1
      obtain rfl := List.append_cancel_left shape
      obtain rfl : n = n' := Except.ok.inj (counts.2.symm.trans counts'.2)
      exact holds
  · exact fun holds => .inr ⟨count, n, more, counts, rfl, holds⟩

/-- Where no count can be read, only the count can be cut. -/
theorem counted_failed {after : Nat → List UInt8 → Prop} {payload : List UInt8} {failure : Failure String}
    (failed : CompactSizeUint.unmarshalling payload 0 = .error failure) :
    Counted after payload ↔ CompactSizeUint.Cut payload := by
  apply or_iff_left
  rintro ⟨count, n, more, counts, rfl, _⟩
  have read := CompactSizeUint.unmarshalling_reads counts.1 [] more
  rw [List.nil_append, List.length_nil, failed] at read
  cases read

theorem Outpoint.unmarshalling_format :
    Format unmarshalling marshalling (fun _ => True) :=
  ⟨fun input start o stop inside accepted => by
    obtain ⟨forward, bound, word⟩ := unmarshalling_spans input start o stop inside accepted
    exact ⟨forward, bound, word, trivial⟩, fun o _ => unmarshalling_reads o⟩

theorem Outpoint.unmarshalling_panics : Panics least unmarshalling (fun _ => False) := by
  refine (Panics.require 36 _ (.array fun txId => .array fun index => .pure _)).congr fun rest => ?_
  simp only [List.length_drop, or_false, iff_false]
  omega

theorem TxIn.script_panics (previousOutput : Outpoint) (scriptLen : Nat)
    (g : Option (List UInt8) → List UInt8 → U8Array 4 → TxIn) :
    Panics least (do
      let (height, bytesForHeight) ← unmarshallingHeight previousOutput scriptLen
      if scriptLen < bytesForHeight then Decoder.panic
      else
        let signatureScript ← take (scriptLen - bytesForHeight)
        let sequence ← array 4
        return g height signatureScript sequence)
      (fun script => if previousOutput.isACoinbaseOutpoint then
        scriptLen ≤ 100 ∧ (scriptLen < 4 ∨ script.length < scriptLen + 4)
        else script.length < scriptLen + 4) := by
  have tail (least n : Nat) (height : Option (List UInt8)) : Panics least (do
      let signatureScript ← take n
      let sequence ← array 4
      return g height signatureScript sequence : Decoder String TxIn) (fun script => script.length < n + 4) := by
    refine (Panics.take n fun script => .array fun sequence => .pure _).congr fun rest => ?_
    simp only [List.length_drop, or_false]
    omega
  unfold unmarshallingHeight
  cases coinbase : previousOutput.isACoinbaseOutpoint with
  | false => exact tail least scriptLen none
  | true =>
    by_cases long : 100 < scriptLen
    · simp only [if_pos long, if_true]
      exact (Panics.fail _).congr fun rest => iff_of_false id fun fits => absurd long (by omega)
    · simp only [if_neg long, if_true]
      have format : Format (do let heightBytes ← take 4; return (some heightBytes, 4) :
          Decoder String (Option (List UInt8) × Nat)) (fun p => p.1.getD [])
          (fun p => ∃ h : List UInt8, p = (some h, 4) ∧ h.length = 4) := by
        constructor
        case spans =>
          refine .bind (.take 4) fun height word hw => .pure ?_
          obtain ⟨rfl, length⟩ := hw
          exact ⟨by simp, height, rfl, length⟩
        case reads =>
          rintro _ ⟨height, rfl, length⟩
          exact .map (.take height 4 length) (.pure _)
      refine (Panics.bind format ((Panics.take 4 fun _ => .pure _).congr fun _ => or_iff_left id)
        (Q := fun _ rest => scriptLen < 4 ∨ rest.length < scriptLen) ?_).congr fun rest => ?_
      · rintro _ ⟨height, rfl, length⟩
        dsimp only
        split_ifs with short
        · exact Panics.panic.congr fun rest => by simp [short]
        · exact (tail _ _ _).congr fun rest => by omega
      · constructor
        · rintro (few | ⟨_, more, ⟨height, rfl, length⟩, rfl, bad⟩)
          · omega
          · simp only [Option.getD_some, List.length_append]
            omega
        · rintro ⟨-, bad⟩
          by_cases few : rest.length < 4
          · exact .inl few
          · refine .inr ⟨_, rest.drop 4, ⟨rest.take 4, rfl, List.length_take_of_le (by omega)⟩,
              (List.take_append_drop 4 rest).symm, ?_⟩
            rw [List.length_drop]
            omega

theorem TxIn.unmarshalling_format : Format unmarshalling marshalling TxIn.WellFormed :=
  ⟨unmarshalling_spans, fun _ => unmarshalling_reads⟩

theorem TxIn.unmarshalling_panics : Panics least unmarshalling TxIn.Cut := by
  refine (Panics.require 41 _ (.bind Outpoint.unmarshalling_format Outpoint.unmarshalling_panics
    fun o _ => Panics.counted fun count n _ => TxIn.script_panics o n
      (g := fun height script sequence => ⟨o, count, height, ⟨script⟩, u32FromLeBytes sequence⟩))).congr
    fun rest => and_congr_right fun _ => ?_
  rw [false_or]
  refine exists₂_congr fun o more => ?_
  rw [true_and]

theorem TxOut.unmarshalling_format : Format unmarshalling marshalling TxOut.WellFormed :=
  ⟨unmarshalling_spans, fun _ => unmarshalling_reads⟩

theorem TxOut.unmarshalling_panics : Panics least unmarshalling TxOut.Cut := by
  have script (least n : Nat) (g : List UInt8 → TxOut) : Panics least
      (do let pkScript ← take n; return g pkScript : Decoder String TxOut) (fun script => script.length < n) :=
    (Panics.take n fun _ => .pure _).congr fun _ => or_iff_left id
  refine (Panics.require 9 _ (.array fun value => Panics.counted fun count n _ =>
    script _ n (g := fun script => ⟨i64FromLeBytes value, count, ⟨script⟩⟩))).congr
    fun rest => and_congr_right fun long => or_iff_right ?_
  omega

theorem Transaction.unmarshalling_format : Format unmarshalling marshalling Transaction.WellFormed :=
  ⟨unmarshalling_spans, fun _ => unmarshalling_reads⟩

theorem Transaction.outputs_panics (g : CompactSizeUint → List TxOut → U8Array 4 → Transaction) :
    Panics least (do
      let txoutCount ← CompactSizeUint.unmarshalling
      let amountTxout ← lift txoutCount.decodedValue
      let txOut ← TxOut.unmarshallingTxouts amountTxout
      let lockTime ← array 4
      return g txoutCount txOut lockTime)
      (Counted (fun amountTxout outputs =>
        Repeated TxOut.marshalling TxOut.WellFormed TxOut.Cut amountTxout outputs ∨
          ∃ (txOut : List TxOut) (more : List UInt8),
            (txOut.length = amountTxout ∧ ∀ txout ∈ txOut, txout.WellFormed) ∧
            outputs = txOut.flatMap TxOut.marshalling ++ more ∧ more.length < 4)) :=
  Panics.counted fun _ n _ => Panics.replicate TxOut.unmarshalling_format
    TxOut.unmarshalling_panics n fun _ _ =>
      (Panics.array fun _ => .pure _).congr fun _ => or_iff_left id

theorem Transaction.unmarshalling_panics (enough : 10 ≤ least) :
    Panics least unmarshalling Transaction.Cut := by
  refine Panics.length fun size long => ?_
  rw [if_neg (by omega)]
  refine Panics.array fun version => Panics.counted fun txinCount n _ => Panics.replicate
    TxIn.unmarshalling_format TxIn.unmarshalling_panics n fun txIn length => ?_
  cases txIn with
  | nil =>
    refine Panics.panic.congr fun rest => iff_of_true trivial (.inl ?_)
    exact length.symm
  | cons first others =>
    apply Panics.lift (a := first) (by simp [Outcome.index])
    have some : n ≠ 0 := by rintro rfl; simp at length
    split_ifs with many
    · refine (Panics.fail _).congr fun rest => iff_of_false id ?_
      simp [some, many]
    · refine (Transaction.outputs_panics fun _ _ _ => ⟨_, _, _, _, _, _⟩).congr
        fun rest => ?_
      simp only [some, List.head?_cons, Option.mem_def, Option.some.injEq, exists_eq_left', false_or]
      exact (and_iff_right many).symm

theorem BlockHeader.unmarshalling_format : Format unmarshalling marshalling (fun _ => True) :=
  ⟨fun input start h stop inside accepted => by
    obtain ⟨forward, bound, word⟩ := unmarshalling_spans input start h stop inside accepted
    exact ⟨forward, bound, word, trivial⟩, fun h _ => unmarshalling_reads h⟩

theorem BlockHeader.unmarshalling_panics : Panics least unmarshalling (fun _ => False) := by
  refine (Panics.require 80 _ (.array fun _ => .array fun _ => .array fun _ => .array fun _ =>
    .array fun _ => .array fun _ => .pure _)).congr fun rest => ?_
  simp only [List.length_drop, or_false, iff_false]
  omega

theorem Block.unmarshalling_panics : Panics 0 unmarshalling Block.Cut := by
  refine (Panics.bind BlockHeader.unmarshalling_format BlockHeader.unmarshalling_panics
    (Q := fun _ => Counted (Repeated Transaction.marshalling Transaction.WellFormed Transaction.Cut))
    fun header _ => Panics.counted fun count n _ => ?_).congr fun rest => ?_
  · have enough : 10 ≤ max 0 header.marshalling.length := by simp
    exact (Panics.replicate Transaction.unmarshalling_format
      (Transaction.unmarshalling_panics enough) n fun txn _ => .pure _).congr fun _ => by simp
  · simp [Block.Cut]

/-- The decoders of blocks and transactions return on exactly the inputs that are not cut in a
field without a guard. -/
theorem decoders_return (bytes : List UInt8) :
    ((Block.unmarshalling bytes 0).Returns ↔ ¬Block.Cut bytes) ∧
      ((Transaction.unmarshalling bytes 0).Returns ↔
        ¬(10 ≤ bytes.length ∧ Transaction.Cut bytes)) := by
  refine ⟨Block.unmarshalling_panics.returns_iff bytes, ?_⟩
  by_cases short : bytes.length < 10
  · have guarded : Transaction.unmarshalling bytes 0 = Outcome.fail
        "The byte array is too short to be a transaction. It must be at least 10 bytes." := by
      rw [Transaction.unmarshalling, bind_ok _ (show length bytes 0 = .ok (bytes.length, 0) from rfl),
        if_pos short]
      rfl
    exact iff_of_true (.inr ⟨_, guarded⟩) fun cut => absurd cut.1 (by omega)
  · obtain ⟨here, never⟩ := Transaction.unmarshalling_panics (Nat.le_refl 10) bytes 0 (by omega)
      (Nat.zero_le _)
    have long : 10 ≤ bytes.length := by omega
    rw [List.drop_zero] at here
    rw [Outcome.returns_iff, here, and_iff_right long]
    exact and_iff_left never

/-- A transaction without inputs, alone and in a block, indexes into the empty list. -/
theorem decoders_panic :
    let tx : List UInt8 := [1, 0, 0, 0, 0, 0, 0, 0, 0, 0]
    Transaction.unmarshalling tx 0 = Outcome.panic ∧
      Block.unmarshalling (List.replicate 80 0 ++ 1 :: tx) 0 = Outcome.panic ∧
      ¬(Transaction.unmarshalling tx 0).Returns := by
  intro tx
  have panics : Transaction.unmarshalling tx 0 = Outcome.panic := by decide +kernel
  refine ⟨panics, by decide +kernel, ?_⟩
  rw [panics]
  rintro (⟨_, returned⟩ | ⟨_, returned⟩) <;> cases returned

end BitcoinNode
