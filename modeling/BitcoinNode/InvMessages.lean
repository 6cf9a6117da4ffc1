import BitcoinNode.GetdataReplies

/-! Inventories that a peer announces. The transactions among them that no peer has announced before
are noted in a list that all peers share, and asked for. -/
namespace BitcoinNode

open Decoder

/-- `transactionsReceived` is shared; nothing panics while it is locked. -/
structure InvState where
  transactionsReceived : List Hash
  tx : NodeSender

section Inv

variable [Crates]

def askForIncomingTx (inventories : List Inventory) : Proc InvState NodeCustomErrors Unit := do
  let getDataMessageBytes ← Proc.lift (GetDataMessage.new inventories).marshalling.widen
  Proc.zoom InvState.tx (fun tx s => { s with tx }) (NodeSender.send getDataMessageBytes)

/-- `for _ in 0..count`: 36 bytes at a time, and what is new is noted at once. -/
def receiveInventories (payload : List UInt8) :
    (count : Nat) → (offset : Nat) → List Inventory → Proc InvState NodeCustomErrors (List Inventory)
  | 0, _, inventories => pure inventories
  | count + 1, offset, inventories => do
    let (inventoryBytes, offset) ← Proc.lift (array 36 payload offset)
    let inv := Inventory.fromLeBytes inventoryBytes
    let s ← Proc.get
    if inv.typeIdentifier = 1 ∧ inv.hash ∉ s.transactionsReceived then do
      Proc.modify fun s => { s with transactionsReceived := s.transactionsReceived ++ [inv.hash] }
      receiveInventories payload count offset (inventories ++ [inv])
    else receiveInventories payload count offset inventories

/-- What the loop does with an inventory once it is read. -/
def note (inventories : List Inventory) (inv : Inventory) : Proc InvState NodeCustomErrors (List Inventory) := do
  let s ← Proc.get
  if inv.typeIdentifier = 1 ∧ inv.hash ∉ s.transactionsReceived then do
    Proc.modify fun s => { s with transactionsReceived := s.transactionsReceived ++ [inv.hash] }
    return inventories ++ [inv]
  else return inventories

def handleInvMessage (payload : List UInt8) : Proc InvState NodeCustomErrors Unit := do
  let (count, offset) ← Proc.lift
    (Outcome.mapErr .UnmarshallingError (CompactSizeUint.unmarshalling payload 0))
  let amount ← Proc.lift count.decodedValue.widen
  let inventories ← receiveInventories payload amount offset []
  if inventories = [] then pure () else askForIncomingTx inventories

end Inv

end BitcoinNode
