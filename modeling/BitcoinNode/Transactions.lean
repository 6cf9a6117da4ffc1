import BitcoinNode.Crates
import BitcoinNode.CompactSizeUint

/-! Transactions and their wire format. `marshalling` is the list of bytes the source appends
to the vector it is given. Every decoder comes with what it accepts (`_spans`) and with the
values it reads back (`_reads`). -/
namespace BitcoinNode

open Decoder

abbrev Hash := U8Array 32

structure Outpoint where
  txId : Hash
  index : UInt32
  deriving DecidableEq, Repr

structure SigScript where
  bytes : List UInt8
  deriving DecidableEq, Repr

structure Pubkey where
  bytes : List UInt8
  deriving DecidableEq, Repr

structure TxIn where
  previousOutput : Outpoint
  scriptBytes : CompactSizeUint
  height : Option (List UInt8)
  signatureScript : SigScript
  sequence : UInt32
  deriving DecidableEq, Repr

structure TxOut where
  value : Int64
  pkScriptBytes : CompactSizeUint
  pkScript : Pubkey
  deriving DecidableEq

structure Transaction where
  version : Int32
  txinCount : CompactSizeUint
  txIn : List TxIn
  txoutCount : CompactSizeUint
  txOut : List TxOut
  lockTime : UInt32
  deriving DecidableEq

namespace Outpoint

def isACoinbaseOutpoint (o : Outpoint) : Bool :=
  o.index == 0xffffffff || o.txId == U8Array.replicate 32 0

def unmarshalling : Decoder String Outpoint := do
  require 36 "The bytes array is not long enough to unmarshall an Outpoint. It must be at least 36 bytes long"
  let txId ← array 32
  let index ← array 4
  return ⟨txId, u32FromLeBytes index⟩

def marshalling (o : Outpoint) : List UInt8 := o.txId.val ++ u32ToLeBytes o.index

@[simp] theorem marshalling_length (o : Outpoint) : o.marshalling.length = 36 := by
  simp [marshalling]

theorem unmarshalling_spans : Spans unmarshalling (fun o word => word = o.marshalling) := by
  refine .bind (.require _ _) fun _ _ hw => .bind (.array 32) fun txId u hu =>
    .bind (.array 4) fun index v hv => .pure ?_
  simp [marshalling, hw, ← hu, ← hv]

theorem unmarshalling_reads (o : Outpoint) : Reads unmarshalling o.marshalling o := by
  refine .require 36 _ (.bind (.array o.txId) (.map (.array ⟨u32ToLeBytes o.index, by simp⟩) ?_))
    (by simp)
  simpa using Reads.pure o

end Outpoint

namespace TxIn

def isCoinbase (t : TxIn) : Bool := t.height.isSome

def getPreviousOutputHash (t : TxIn) : Hash := t.previousOutput.txId
def getPreviousOutputIndex (t : TxIn) : Nat := t.previousOutput.index.toNat

/-- The coinbase branch: four bytes of the script become the height. -/
def unmarshallingHeight (previousOutput : Outpoint) (scriptLen : Nat) :
    Decoder String (Option (List UInt8) × Nat) :=
  if previousOutput.isACoinbaseOutpoint then
    if 100 < scriptLen then
      fail "The bytes received do not correspond to a TxIn, the script bytes are invalid"
    else do
      let heightBytes ← take 4
      return (some heightBytes, 4)
  else
    return (none, 0)

/-- A script length below the height bytes makes the slice start after its end, which panics. -/
def unmarshalling : Decoder String TxIn := do
  require 41 "The bytes received do not correspond to a TxIn, there are not enough bytes"
  let previousOutput ← Outpoint.unmarshalling
  let scriptBytes ← CompactSizeUint.unmarshalling
  let amountBytesToRead ← lift scriptBytes.decodedValue
  let (height, bytesForHeight) ← unmarshallingHeight previousOutput amountBytesToRead
  if amountBytesToRead < bytesForHeight then panic
  else
    let signatureScript ← take (amountBytesToRead - bytesForHeight)
    let sequence ← array 4
    return ⟨previousOutput, scriptBytes, height, ⟨signatureScript⟩, u32FromLeBytes sequence⟩

def unmarshallingTxins (amountTxin : Nat) : Decoder String (List TxIn) :=
  replicate amountTxin unmarshalling

/-- The height is written for a coinbase input only, that is when there is one. -/
def marshalling (t : TxIn) : List UInt8 :=
  t.previousOutput.marshalling ++ t.scriptBytes.marshalling
    ++ (if t.isCoinbase then t.height.getD [] else [])
    ++ t.signatureScript.bytes ++ u32ToLeBytes t.sequence

/-- What the decoder can produce: the script length counts the height bytes, and there are
height bytes exactly for a coinbase outpoint. -/
structure WellFormed (t : TxIn) : Prop where
  script : t.scriptBytes.Counts ((t.height.getD []).length + t.signatureScript.bytes.length)
  coinbase : t.isCoinbase = t.previousOutput.isACoinbaseOutpoint
  height : ∀ height ∈ t.height, height.length = 4
  limit : t.isCoinbase → (t.height.getD []).length + t.signatureScript.bytes.length ≤ 100

theorem marshalling_eq (t : TxIn) : t.marshalling = t.previousOutput.marshalling ++
    (t.scriptBytes.marshalling ++ (t.height.getD [] ++
      (t.signatureScript.bytes ++ u32ToLeBytes t.sequence))) := by
  cases h : t.height <;> simp [marshalling, isCoinbase, h]

theorem unmarshalling_height_spans (previousOutput : Outpoint) (scriptLen : Nat) :
    Spans (unmarshallingHeight previousOutput scriptLen) (fun (height, bytesForHeight) word =>
      word = height.getD [] ∧ bytesForHeight = word.length ∧
      height.isSome = previousOutput.isACoinbaseOutpoint ∧
      (∀ h ∈ height, h.length = 4) ∧ (height.isSome → scriptLen ≤ 100)) := by
  unfold unmarshallingHeight
  split_ifs with coinbase long
  · exact .fail _
  · refine .bind (.take 4) fun height word hw => .pure ?_
    obtain ⟨rfl, length⟩ := hw
    simp [length, coinbase, Nat.le_of_not_lt long]
  · exact .pure (by simp [coinbase])

theorem unmarshalling_spans :
    Spans unmarshalling (fun t word => word = t.marshalling ∧ t.WellFormed) := by
  refine .bind (.require _ _) fun _ _ hw => .bind Outpoint.unmarshalling_spans fun o u hu =>
    .bind CompactSizeUint.unmarshalling_spans fun scriptBytes v hv => .bind (.lift _)
    fun amount _ hn => .bind (unmarshalling_height_spans o amount) fun height x hx => ?_
  obtain ⟨height, bytesForHeight⟩ := height
  obtain ⟨rfl, rfl, coinbase, four, limit⟩ := hx
  dsimp only
  split_ifs with short
  · exact .panic
  refine .bind (.take _) fun script y hy => .bind (.array 4) fun sequence z hz => .pure ?_
  obtain ⟨rfl, length⟩ := hy
  obtain ⟨decoded, rfl⟩ := hn
  have total : (height.getD []).length + script.length = amount := by omega
  refine ⟨by simp [marshalling_eq, hw, hu, hv.1, ← hz], ?_⟩
  exact ⟨⟨hv.2, by simpa [total] using decoded⟩, coinbase, four,
    fun some => by simpa [total] using limit some⟩

theorem unmarshalling_height_reads {t : TxIn} (valid : t.WellFormed) :
    Reads (unmarshallingHeight t.previousOutput
        ((t.height.getD []).length + t.signatureScript.bytes.length))
      (t.height.getD []) (t.height, (t.height.getD []).length) := by
  unfold unmarshallingHeight
  rw [← valid.coinbase]
  cases h : t.height with
  | none => simpa [isCoinbase, h] using Reads.pure (none, 0)
  | some height =>
    have coinbase : t.isCoinbase = true := by simp [isCoinbase, h]
    have limit := valid.limit coinbase
    have four := valid.height height (by simp [h])
    rw [if_pos coinbase, if_neg (by simpa [h] using limit)]
    simpa [four] using Reads.map (.take height 4 four) (.pure (some height, 4))

theorem unmarshalling_reads {t : TxIn} (valid : t.WellFormed) :
    Reads unmarshalling t.marshalling t := by
  have size : 41 ≤ t.marshalling.length := by
    obtain ⟨firstByte, rest, shape, _⟩ := valid.script.1
    simp [marshalling_eq, CompactSizeUint.marshalling, shape]
    omega
  refine .require 41 _ ?_ size
  rw [marshalling_eq]
  refine .bind (Outpoint.unmarshalling_reads _) (.bind
    (CompactSizeUint.unmarshalling_reads valid.script.1) (.lift valid.script.2
      (.bind (unmarshalling_height_reads valid) ?_)))
  dsimp only
  rw [if_neg (by omega), Nat.add_sub_cancel_left]
  refine .bind (.take _ _ rfl) (.map (.array ⟨u32ToLeBytes t.sequence, by simp⟩) ?_)
  simpa using Reads.pure t

end TxIn

namespace TxOut

def unmarshalling : Decoder String TxOut := do
  require 9 "The bytes vector is not long enough to unmarshall a TxOut. It must be at least 9 bytes long"
  let byteValue ← array 8
  let pkScriptBytes ← CompactSizeUint.unmarshalling
  let amountBytes ← lift pkScriptBytes.decodedValue
  let pkScript ← take amountBytes
  return ⟨i64FromLeBytes byteValue, pkScriptBytes, ⟨pkScript⟩⟩

def unmarshallingTxouts (amountTxout : Nat) : Decoder String (List TxOut) :=
  replicate amountTxout unmarshalling

def marshalling (t : TxOut) : List UInt8 :=
  i64ToLeBytes t.value ++ t.pkScriptBytes.marshalling ++ t.pkScript.bytes

def WellFormed (t : TxOut) : Prop := t.pkScriptBytes.Counts t.pkScript.bytes.length

theorem unmarshalling_spans :
    Spans unmarshalling (fun t word => word = t.marshalling ∧ t.WellFormed) := by
  refine .bind (.require _ _) fun _ _ hw => .bind (.array 8) fun value u hu =>
    .bind CompactSizeUint.unmarshalling_spans fun pkScriptBytes v hv => .bind (.lift _)
    fun amount x hx => .bind (.take amount) fun script y hy => .pure ?_
  obtain ⟨decoded, rfl⟩ := hx
  obtain ⟨rfl, rfl⟩ := hy
  exact ⟨by simp [marshalling, hw, ← hu, hv.1], hv.2, decoded⟩

theorem unmarshalling_reads {t : TxOut} (valid : t.WellFormed) :
    Reads unmarshalling t.marshalling t := by
  have size : 9 ≤ t.marshalling.length := by
    obtain ⟨firstByte, rest, shape, _⟩ := valid.1
    simp [marshalling, CompactSizeUint.marshalling, shape]
    omega
  refine .require 9 _ ?_ size
  rw [marshalling, List.append_assoc]
  refine .bind (.array ⟨i64ToLeBytes t.value, by simp⟩) (.bind
    (CompactSizeUint.unmarshalling_reads valid.1) (.lift valid.2 (.map (.take _ _ rfl) ?_)))
  simpa using Reads.pure t

end TxOut

namespace Transaction

/-- The first guard looks at the whole vector, not at what is left of it; `tx_in[0]` panics
on a transaction without inputs. -/
def unmarshalling : Decoder String Transaction := do
  let size ← length
  if size < 10 then
    fail "The byte array is too short to be a transaction. It must be at least 10 bytes."
  else
    let version ← array 4
    let txinCount ← CompactSizeUint.unmarshalling
    let amountTxin ← lift txinCount.decodedValue
    let txIn ← TxIn.unmarshallingTxins amountTxin
    let first ← lift (Outcome.index txIn 0)
    if first.isCoinbase ∧ amountTxin ≠ 1 then
      fail "A coinbase transaction must have only one txin."
    else
      let txoutCount ← CompactSizeUint.unmarshalling
      let amountTxout ← lift txoutCount.decodedValue
      let txOut ← TxOut.unmarshallingTxouts amountTxout
      let lockTime ← array 4
      return ⟨i32FromLeBytes version, txinCount, txIn, txoutCount, txOut,
        u32FromLeBytes lockTime⟩

def marshalling (tx : Transaction) : List UInt8 :=
  i32ToLeBytes tx.version ++ tx.txinCount.marshalling ++ tx.txIn.flatMap TxIn.marshalling
    ++ tx.txoutCount.marshalling ++ tx.txOut.flatMap TxOut.marshalling
    ++ u32ToLeBytes tx.lockTime

def hash [Crates] (tx : Transaction) : Hash := sha256d tx.marshalling

def unmarshallingTransactions (amountTransactions : Nat) : Decoder String (List Transaction) :=
  replicate amountTransactions unmarshalling

def isCoinbaseTransaction (tx : Transaction) : Checked Bool := do
  let first ← Outcome.index tx.txIn 0
  return first.isCoinbase

structure WellFormed (tx : Transaction) : Prop where
  txinCount : tx.txinCount.Counts tx.txIn.length
  inputs : ∀ txin ∈ tx.txIn, txin.WellFormed
  nonempty : tx.txIn ≠ []
  coinbase : ∀ first ∈ tx.txIn.head?, first.isCoinbase → tx.txIn.length = 1
  txoutCount : tx.txoutCount.Counts tx.txOut.length
  outputs : ∀ txout ∈ tx.txOut, txout.WellFormed

theorem unmarshalling_spans :
    Spans unmarshalling (fun tx word => word = tx.marshalling ∧ tx.WellFormed) := by
  refine .bind .length fun size _ hw => ?_
  split_ifs
  · exact .fail _
  refine .bind (.array 4) fun version u hu =>
    .bind CompactSizeUint.unmarshalling_spans fun txinCount v hv => .bind (.lift _)
    fun amountTxin _ hin => .bind (.replicate _ TxIn.unmarshalling_spans) fun txIn x hx =>
    .bind (.lift _) fun first _ hfirst => ?_
  obtain ⟨decodedIn, rfl⟩ := hin
  obtain ⟨read, rfl⟩ := hfirst
  have head := Outcome.index_eq_ok.mp read
  obtain ⟨rfl, inputs, validInputs⟩ := hx
  split_ifs with manyInputs
  · exact .fail _
  refine .bind CompactSizeUint.unmarshalling_spans fun txoutCount y hy => .bind (.lift _)
    fun amountTxout _ hout => .bind (.replicate _ TxOut.unmarshalling_spans) fun txOut z hz =>
    .bind (.array 4) fun lockTime t ht => .pure ?_
  obtain ⟨decodedOut, rfl⟩ := hout
  obtain ⟨rfl, outputs, validOutputs⟩ := hz
  refine ⟨by simp [marshalling, hw, ← hu, hv.1, hy.1, ← ht], ?_⟩
  constructor
  case txinCount => exact ⟨hv.2, by simpa [inputs] using decodedIn⟩
  case inputs => exact validInputs
  case nonempty => rintro rfl; simp at head
  case coinbase =>
    intro other isHead coinbase
    obtain rfl : first = other := by simpa [List.head?_eq_getElem?, head] using isHead
    by_contra many
    exact manyInputs ⟨coinbase, by rwa [← inputs]⟩
  case txoutCount => exact ⟨hy.2, by simpa [outputs] using decodedOut⟩
  case outputs => exact validOutputs

theorem unmarshalling_reads {tx : Transaction} (valid : tx.WellFormed) :
    Reads unmarshalling tx.marshalling tx := by
  obtain ⟨first, rest, shape⟩ := List.exists_cons_of_ne_nil valid.nonempty
  have size : 10 ≤ tx.marshalling.length := by
    obtain ⟨_, _, count, _⟩ := valid.txinCount.1
    obtain ⟨_, _, count', _⟩ := valid.txoutCount.1
    have input : 36 ≤ first.marshalling.length := by simp [TxIn.marshalling]
    simp [marshalling, CompactSizeUint.marshalling, count, count', shape]
    omega
  refine .length fun total enough => ?_
  rw [if_neg (by omega)]
  have word : tx.marshalling = i32ToLeBytes tx.version ++ (tx.txinCount.marshalling ++
      (tx.txIn.flatMap TxIn.marshalling ++ (tx.txoutCount.marshalling ++
        (tx.txOut.flatMap TxOut.marshalling ++ u32ToLeBytes tx.lockTime)))) := by
    simp [marshalling]
  have single : ¬(first.isCoinbase ∧ tx.txIn.length ≠ 1) := fun both =>
    both.2 (valid.coinbase first (by simp [shape]) both.1)
  rw [word]
  refine .bind (.array ⟨i32ToLeBytes tx.version, by simp⟩) (.bind
    (CompactSizeUint.unmarshalling_reads valid.txinCount.1) (.lift valid.txinCount.2 (.bind
      (.replicate _ fun txin member => TxIn.unmarshalling_reads (valid.inputs txin member))
      (.lift (a := first) (by simp [Outcome.index, shape]) ?_))))
  rw [if_neg single]
  refine .bind (CompactSizeUint.unmarshalling_reads valid.txoutCount.1) (.lift
    valid.txoutCount.2 (.bind
      (.replicate _ fun txout member => TxOut.unmarshalling_reads (valid.outputs txout member))
      (.map (.array ⟨u32ToLeBytes tx.lockTime, by simp⟩) ?_)))
  simpa using Reads.pure tx

theorem eq_of_marshalling {tx tx' : Transaction} (valid : tx.WellFormed)
    (valid' : tx'.WellFormed) (same : tx.marshalling = tx'.marshalling) : tx = tx' := by
  have read := unmarshalling_reads valid [] []
  rw [same, unmarshalling_reads valid' [] []] at read
  exact (Prod.mk.inj (Except.ok.inj read)).1.symm

/-- A coinbase transaction, for concrete runs; `tag` makes its id. -/
def mint (tag : UInt8) (txOut : List TxOut) : Transaction :=
  ⟨1, ⟨[1]⟩, [⟨⟨U8Array.replicate 32 0, 0xffffffff⟩, ⟨[4]⟩, some [3, tag, 0, 0], ⟨[]⟩, 0xffffffff⟩],
    .new txOut.length, txOut, 0⟩

def pay (txId : Hash) (index : UInt32) (txOut : List TxOut) : Transaction :=
  ⟨1, ⟨[1]⟩, [⟨⟨txId, index⟩, ⟨[0]⟩, none, ⟨[]⟩, 0xffffffff⟩], .new txOut.length, txOut, 0⟩

end Transaction

end BitcoinNode
