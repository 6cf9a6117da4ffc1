import BitcoinNode.Account
import BitcoinNode.Handlers
import BitcoinNode.Lib.Base58Codec

/-! Payments: how a wallet selects outputs of an account, builds and signs a transaction that
spends them, checks it and announces it. -/
namespace BitcoinNode

/-- What payments take from third-party crates, besides hashing and encoding. -/
class WalletCrates extends Crates where
  /-- `bs58::decode(..).into_vec()` -/
  bs58Decode : String → Except String (List UInt8)
  /-- `bitcoin_hashes::ripemd160` -/
  ripemd160 : List UInt8 → U8Array 20
  /-- `secp256k1::PublicKey::from_secret_key(SecretKey::from_slice(key)?).serialize()` -/
  publicKey : U8Array 32 → Except String (U8Array 33)
  /-- `k256::ecdsa::SigningKey::from(SecretKey::from_bytes(key)?).sign(hash).to_der()` -/
  sign : (key hash : U8Array 32) → Except String (List UInt8)

def Outcome.ofResult : Except String α → Outcome String α
  | .ok a => .ok a
  | .error text => Outcome.fail text

/-- `&bytes[start..stop]` -/
def checkedSlice (bytes : List UInt8) (start stop : Nat) : Outcome ε (List UInt8) :=
  if start ≤ stop ∧ stop ≤ bytes.length then .ok (slice bytes start stop) else Outcome.panic

/-- `copy_from_slice`, which panics on any other length. -/
def copyArray (n : Nat) (bytes : List UInt8) : Outcome ε (U8Array n) :=
  if fits : bytes.length = n then .ok ⟨bytes, fits⟩ else Outcome.panic

/-- `a - b` on lengths. -/
def checkedLengthSub (a b : Nat) : Outcome ε Nat := if b ≤ a then .ok (a - b) else Outcome.panic

/-- `a - b`, as compiled with overflow checks. -/
def checkedSub (a b : Int64) : Checked Int64 :=
  if -2 ^ 63 ≤ a.toInt - b.toInt ∧ a.toInt - b.toInt < 2 ^ 63 then .ok (a - b) else Outcome.panic

section Addresses

variable [WalletCrates]

def hash160 (publicKeyBytesCompressed : List UInt8) : U8Array 20 :=
  WalletCrates.ripemd160 (Crates.sha256 publicKeyBytesCompressed).val

def addressChecksum (bytes : List UInt8) : List UInt8 :=
  (Crates.sha256 (Crates.sha256 bytes).val).val.take 4

def generateAddress (privateKey : U8Array 32) : Outcome String String := do
  let publicKeyBytesCompressed ← Outcome.ofResult (WalletCrates.publicKey privateKey)
  let extendedHash := 0x6f :: (hash160 publicKeyBytesCompressed.val).val
  return Crates.bs58Encode (extendedHash ++ addressChecksum extendedHash)

def validateAddress (address : String) : Outcome String Unit := do
  if Str.len address.toList ≠ 34 then
    Outcome.fail "The address is invalid. It has an invalid length."
  else
    let addressDecodedBytes ← Outcome.ofResult (WalletCrates.bs58Decode address)
    let length ← checkedLengthSub addressDecodedBytes.length 4
    if addressDecodedBytes.drop length ≠ addressChecksum (addressDecodedBytes.take length) then
      Outcome.fail "The address is invalid. The checksum is invalid."
    else return ()

def getPubkeyHashFromAddress (address : String) : Outcome String (U8Array 20) := do
  validateAddress address
  let addressDecodedBytes ← Outcome.ofResult (WalletCrates.bs58Decode address)
  let stop ← checkedLengthSub addressDecodedBytes.length 4
  let pubkeyHash ← checkedSlice addressDecodedBytes 1 stop
  copyArray 20 pubkeyHash

/-- A compressed key has one byte more before the checksum; the checksum is not looked at. -/
def decodeWifPrivateKey (wifPrivateKey : String) : Outcome String (U8Array 32) := do
  let length := Str.len wifPrivateKey.toList
  if length < 51 ∨ 52 < length then
    Outcome.fail "The WIF private key is invalid. It has an invalid length."
  else
    let decoded ← Outcome.ofResult (WalletCrates.bs58Decode wifPrivateKey)
    let stop ← checkedLengthSub decoded.length (if length = 51 then 4 else 5)
    let vector ← checkedSlice decoded 1 stop
    if vector.length ≠ 32 then Outcome.fail "The WIF private key could not be decoded."
    else copyArray 32 vector

def validateAddressPrivateKey (privateKey : U8Array 32) (address : String) : Outcome String Unit := do
  let generated ← generateAddress privateKey
  if generated = address then return ()
  else Outcome.fail "The private key does not correspond to the address"

def getPubkeyCompressed (privateKey : String) : Outcome String (U8Array 33) := do
  let privateKey ← decodeWifPrivateKey privateKey
  Outcome.ofResult (WalletCrates.publicKey privateKey)

def opHash160 : UInt8 := 0xA9
def opEqualverify : UInt8 := 0x88
def opChecksig : UInt8 := 0xAC

def generatePubkeyScript (address : String) : Outcome String (List UInt8) := do
  let pubkeyHash ← getPubkeyHashFromAddress address
  return [opDup, opHash160, 20] ++ pubkeyHash.val ++ [opEqualverify, opChecksig]

/-- The number of bytes to push, at position 2, is not looked at. -/
def p2pkhScriptValidate (p2pkhScript sigScript : List UInt8) : Outcome String Bool := do
  let lengthSig ← Outcome.index sigScript 0
  let sigScriptPubkey ← checkedSlice sigScript (lengthSig.toNat + 2) (lengthSig.toNat + 35)
  if (← checkedSlice p2pkhScript 0 1) ≠ [opDup] then return false
  else if (← checkedSlice p2pkhScript 1 2) ≠ [opHash160] then return false
  else if (← checkedSlice p2pkhScript 23 24) ≠ [opEqualverify] then return false
  else if (← checkedSlice p2pkhScript 3 23) ≠ (hash160 sigScriptPubkey).val then return false
  else if (← checkedSlice p2pkhScript 24 25) ≠ [opChecksig] then return false
  else return true

end Addresses

/-- `Node::utxos_referenced_to_account`, which visits the map as `setUtxos` does. -/
def utxosReferencedToAccount [Crates] (visit : List (Hash × UtxoTuple)) (address : String) :
    Checked (List UtxoTuple) :=
  Outcome.collect (fun (_, utxo) => utxo.referencedUtxos address) visit

def Account.loadUtxos (account : Account) (utxos : List UtxoTuple) : Account :=
  { account with utxoSet := utxos }

theorem Account.set_utxos_eq_load [Crates] (account : Account) (visit : List (Hash × UtxoTuple)) :
    account.setUtxos visit =
      (do return account.loadUtxos (← utxosReferencedToAccount visit account.address)) := rfl

/-- An account that can spend. -/
structure SpendingAccount extends Account where
  privateKey : String

namespace UtxoTuple

/-- Outputs are taken until the amount is exceeded, counting what was raised before. -/
def utxosToSpend (value : Int64) :
    List (TxOut × Nat) → (partialAmount : Int64) → Checked (List (TxOut × Nat))
  | [], _ => return []
  | utxo :: rest, partialAmount => do
    let partialAmount ← checkedAdd partialAmount utxo.1.value
    if value < partialAmount then return [utxo]
    else return utxo :: (← utxosToSpend value rest partialAmount)

def find (t : UtxoTuple) (previousHash : Hash) (previousIndex : Nat) : Option (List UInt8) :=
  if t.hash ≠ previousHash then none
  else (t.utxoSet.find? (·.2 = previousIndex)).map (·.1.pkScript.bytes)

end UtxoTuple

/-- Whole tuples are taken while they do not reach the amount, then outputs of the next one. -/
def getUtxosForAmount (value : Int64) :
    List UtxoTuple → (partialAmount : Int64) → Checked (List UtxoTuple)
  | [], _ => return []
  | utxo :: rest, partialAmount => do
    let amount ← checkedAdd partialAmount (← utxo.balance)
    if amount < value then return utxo :: (← getUtxosForAmount value rest amount)
    else return [⟨utxo.hash, ← UtxoTuple.utxosToSpend value utxo.utxoSet partialAmount⟩]

def TxIn.incompleteTxin (previousOutput : Outpoint) : TxIn :=
  ⟨previousOutput, CompactSizeUint.new 0, none, ⟨[]⟩, 0xffffffff⟩

/-- `add` and `set_signature_script` do the same. -/
def TxIn.add (t : TxIn) (signature : SigScript) : TxIn :=
  { t with scriptBytes := CompactSizeUint.new signature.bytes.length, signatureScript := signature }

def TxOut.new (value : Int64) (pkScript : List UInt8) : TxOut :=
  ⟨value, CompactSizeUint.new pkScript.length, ⟨pkScript⟩⟩

/-- The script that is signed is the one of the last tuple that has the output. -/
def scriptToSign (inputToSign : TxIn) (utxosToSpend : List UtxoTuple) : List UInt8 :=
  utxosToSpend.foldl (fun script utxos =>
    (utxos.find inputToSign.getPreviousOutputHash inputToSign.getPreviousOutputIndex).getD script) []

/-- The scripts that `validate` checks against, by the position of the input. -/
def p2pkhScripts (utxosToSpend : List UtxoTuple) : List (List UInt8) :=
  utxosToSpend.flatMap fun utxo => utxo.utxoSet.map (·.1.pkScript.bytes)

theorem p2pkh_scripts_eq (utxosToSpend : List UtxoTuple) :
    p2pkhScripts utxosToSpend = (holdings utxosToSpend).map (·.2.1.pkScript.bytes) := by
  simp [p2pkhScripts, holdings, List.map_flatMap, Function.comp_def]

section Payments

variable [WalletCrates]

namespace Transaction

/-- The index of an output is cut to 32 bits. -/
def generateUnsignedTransaction (addressReceiver changeAdress : String) (value fee : Int64)
    (utxosToSpend : List UtxoTuple) : Outcome String Transaction := do
  let inputBalance ← Outcome.widen (utxosToSpend.foldlM (fun inputBalance utxo => do
    checkedAdd inputBalance (← utxo.balance)) 0)
  let txIns := utxosToSpend.flatMap fun utxo => utxo.utxoSet.map fun (_, index) =>
    TxIn.incompleteTxin ⟨utxo.hash, UInt32.ofNat index⟩
  let changeAmount ← Outcome.widen (do checkedSub inputBalance (← checkedAdd value fee))
  let targetPkScript ← generatePubkeyScript addressReceiver
  let changePkScript ← generatePubkeyScript changeAdress
  let txOuts := [TxOut.new value targetPkScript, TxOut.new changeAmount changePkScript]
  return ⟨2, CompactSizeUint.new txIns.length, txIns, CompactSizeUint.new txOuts.length, txOuts, 0⟩

def generateMessageToSign (tx : Transaction) (txInIndex : Nat) (utxosToSpend : List UtxoTuple) :
    U8Array 32 :=
  let txIn := tx.txIn.modify txInIndex fun inputToSign => inputToSign.add ⟨scriptToSign inputToSign utxosToSpend⟩
  Crates.sha256 ({ tx with txIn }.marshalling ++ u32ToLeBytes 1)

end Transaction

/-- The signature and the public key, each after its length. -/
def SigScript.generateSigScript (hashTransaction : U8Array 32) (account : SpendingAccount) :
    Outcome String SigScript := do
  let privateKey ← decodeWifPrivateKey account.privateKey
  let signature ← Outcome.ofResult (WalletCrates.sign privateKey hashTransaction)
  let sig := signature ++ [0x01]
  let bytesPublicKey ← getPubkeyCompressed account.privateKey
  return ⟨UInt8.ofNat sig.length :: sig ++ UInt8.ofNat 33 :: bytesPublicKey.val⟩

namespace Transaction

def sign (tx : Transaction) (account : SpendingAccount) (utxosToSpend : List UtxoTuple) :
    Outcome String Transaction := do
  let signatures ← (List.range tx.txIn.length).mapM fun index =>
    SigScript.generateSigScript (tx.generateMessageToSign index utxosToSpend) account
  return { tx with txIn := List.zipWith TxIn.add tx.txIn signatures }

def validate (tx : Transaction) (utxosToSpend : List UtxoTuple) : Outcome String Unit :=
  tx.txIn.zipIdx.forM fun (txin, index) => do
    let p2pkhScript ← Outcome.index (p2pkhScripts utxosToSpend) index
    if ← p2pkhScriptValidate p2pkhScript txin.signatureScript.bytes then return ()
    else Outcome.fail "The p2pkh script is not valid"

end Transaction

namespace SpendingAccount

def new (wifPrivateKey address : String) : Outcome String SpendingAccount := do
  let rawPrivateKey ← decodeWifPrivateKey wifPrivateKey
  validateAddressPrivateKey rawPrivateKey address
  return ⟨⟨address, [], [], []⟩, wifPrivateKey⟩

def hasBalance (account : SpendingAccount) (value : Int64) : Checked Bool := do
  let balance ← account.balance
  return value < balance

/-- `makeTransaction` before the transaction is added to the pending ones. -/
def signedTransaction (account : SpendingAccount) (addressReceiver : String) (amount fee : Int64) :
    Outcome String Transaction := do
  validateAddress addressReceiver
  let value ← Outcome.widen (checkedAdd amount fee)
  let enough ← Outcome.widen (account.hasBalance value)
  if !enough then
    Outcome.fail s!"The balance of the account {account.address} has less than {value} satoshis"
  else
    let utxosToSpend ← Outcome.widen (getUtxosForAmount value account.utxoSet 0)
    let unsignedTransaction ←
      Transaction.generateUnsignedTransaction addressReceiver account.address amount fee utxosToSpend
    let signedTransaction ← unsignedTransaction.sign account utxosToSpend
    signedTransaction.validate utxosToSpend
    return signedTransaction

def addTransaction (transaction : Transaction) (account : SpendingAccount) : SpendingAccount :=
  { account with pendingTransactions := account.pendingTransactions ++ [transaction] }

def makeTransaction (addressReceiver : String) (amount fee : Int64) :
    Proc SpendingAccount String Transaction := do
  let account ← Proc.get
  let transaction ← Proc.lift (account.signedTransaction addressReceiver amount fee)
  Proc.modify (addTransaction transaction)
  return transaction

end SpendingAccount

/-- What a payment needs of the wallet: its accounts, which of them is in use, whether a thread
panicked while it was writing them, and the channels to the peers. -/
structure PaymentWallet where
  currentAccountIndex : Option Nat
  accounts : List SpendingAccount
  accountsPoisoned : Bool
  nodesSender : List NodeSender

/-- Meant to check that both are greater than zero. -/
def validateTransactionData (amount fee : Int64) : Outcome String Unit := do
  let sum ← Outcome.widen (checkedAdd amount fee)
  if sum ≤ 0 then
    Outcome.fail "Error trying to make transaction. Amount and fee must be greater than zero"
  else return ()

def Inventory.newTx (hash : Hash) : Inventory := ⟨1, hash⟩

def invMershalling (inventories : List Inventory) : Checked (List UInt8) := do
  let count := CompactSizeUint.new inventories.length
  let invPayload := count.marshalling ++ inventories.flatMap Inventory.toLeBytes
  let header ← HeaderMessage.toLeBytes
    ⟨startString, "inv", UInt32.ofNat invPayload.length, getChecksum invPayload⟩
  return header ++ invPayload

/-- Closed channels are passed over; the broadcast fails if there is no open one. -/
def broadcastToNodes (message : List UInt8) : Proc (List NodeSender) NodeCustomErrors Unit :=
  ⟨fun nodesSender =>
    (if nodesSender.any NodeSender.open_ then .ok () else Outcome.fail (.ThreadChannelError "All nodes failed"),
      nodesSender.map fun nodeSender => ((NodeSender.send message).run nodeSender).2)⟩

def broadcastTx (rawTx : Hash) : Proc (List NodeSender) NodeCustomErrors Unit := do
  let invMessageBytes ← Proc.lift (invMershalling [.newTx rawTx]).widen
  broadcastToNodes invMessageBytes

namespace PaymentWallet

/-- `self.accounts.write()?[index].make_transaction(..)?`; a panic under the lock poisons it. -/
def accountTransaction (index : Nat) (addressReceiver : String) (amount fee : Int64) :
    Proc PaymentWallet String Transaction :=
  ⟨fun wallet =>
    if wallet.accountsPoisoned then (Outcome.fail poisoned.fmt, wallet)
    else
      match wallet.accounts[index]? with
      | none => (Outcome.panic, { wallet with accountsPoisoned := true })
      | some account =>
        match (SpendingAccount.makeTransaction addressReceiver amount fee).run account with
        | (.ok transaction, account) =>
          (.ok transaction, { wallet with accounts := wallet.accounts.set index account })
        | (.error (.err text), _) => (Outcome.fail text, wallet)
        | (.error .panic, _) => (Outcome.panic, { wallet with accountsPoisoned := true })
        | (.error .abort, _) => (Outcome.abort, wallet)⟩

def makeTransaction (addressReceiver : String) (amount fee : Int64) : Proc PaymentWallet String Unit := do
  let wallet ← Proc.get
  match wallet.currentAccountIndex with
  | none => Proc.lift (Outcome.fail "Error trying to make transaction. No account selected")
  | some accountIndex => do
    Proc.lift (validateTransactionData amount fee)
    let transaction ← accountTransaction accountIndex addressReceiver amount fee
    ⟨fun wallet =>
      let sent := (broadcastTx transaction.hash).run wallet.nodesSender
      (Outcome.mapErr NodeCustomErrors.fmt sent.1, { wallet with nodesSender := sent.2 })⟩

end PaymentWallet

end Payments

namespace OneKey

def privateKey : U8Array 32 :=
  ⟨[6, 108, 32, 104, 165, 185, 214, 80, 105, 136, 40, 168, 227, 159, 148, 167, 132, 226, 221, 210,
    92, 2, 54, 171, 127, 26, 1, 77, 79, 155, 75, 73], rfl⟩

def publicKey : U8Array 33 :=
  ⟨[2, 97, 71, 113, 75, 91, 53, 225, 142, 50, 113, 136, 45, 131, 160, 66, 203, 44, 151, 27, 198,
    90, 160, 247, 14, 54, 21, 235, 55, 137, 207, 103, 103], rfl⟩

def pubkeyHash : U8Array 20 :=
  ⟨[73, 192, 196, 218, 56, 144, 40, 197, 240, 174, 164, 1, 87, 252, 26, 163, 29, 225, 113, 187], rfl⟩

/-- The signatures of this key for three messages, each after its first bytes. -/
def signatures : List (List UInt8 × List UInt8) := [
  ([132, 171, 12, 127],
    [48, 68, 2, 32, 31, 94, 100, 62, 128, 148, 117, 91, 184, 187, 94, 104, 157, 135, 56, 224, 22,
     30, 131, 95, 75, 78, 157, 221, 196, 103, 252, 70, 241, 122, 187, 120, 2, 32, 60, 53, 32, 175,
     229, 67, 7, 58, 104, 201, 26, 199, 236, 216, 175, 198, 31, 243, 69, 49, 70, 59, 10, 138, 37,
     177, 194, 119, 31, 54, 123, 63]),
  ([220, 115, 1, 74],
    [48, 68, 2, 32, 123, 115, 106, 136, 191, 48, 33, 157, 72, 56, 116, 78, 210, 1, 95, 249, 53,
     212, 146, 30, 87, 61, 217, 197, 51, 72, 14, 191, 94, 119, 71, 93, 2, 32, 74, 47, 115, 250, 83,
     89, 139, 61, 229, 233, 253, 110, 243, 230, 101, 121, 98, 97, 57, 58, 99, 237, 68, 87, 40, 254,
     7, 22, 206, 43, 245, 93]),
  ([249, 186, 192, 193],
    [48, 69, 2, 33, 0, 201, 202, 230, 224, 230, 196, 72, 130, 37, 117, 251, 112, 27, 49, 100, 31,
     102, 105, 205, 23, 147, 147, 233, 6, 117, 124, 54, 63, 223, 209, 20, 75, 2, 32, 65, 243, 197,
     47, 135, 173, 210, 82, 182, 247, 112, 29, 203, 91, 136, 130, 173, 51, 136, 237, 161, 79, 229,
     19, 100, 227, 184, 189, 92, 156, 250, 110])]

/-- The crates as they are on this key, its address and these messages; a zero byte for each of
seventy stands for the signature of any other. -/
@[reducible] def crates : WalletCrates where
  toCrates := Crates.standard
  bs58Decode text :=
    match Base58.decode text with
    | some bytes => .ok bytes
    | none => .error "provided string contained invalid character"
  ripemd160 _ := pubkeyHash
  publicKey key := if key = privateKey then .ok publicKey else .error "malformed or out-of-range secret key"
  sign key hash :=
    if key = privateKey then .ok ((signatures.lookup (hash.val.take 4)).getD (List.replicate 70 0))
    else .error "signature error"

def address : String := "mnEvYsxexfDEkCx2YLEfzhjrwKKcyAhMqV"

/-- An account with one output of ten satoshis under this script. -/
def account (pkScript : List UInt8) : SpendingAccount :=
  ⟨⟨address, [⟨U8Array.replicate 32 1, [(TxOut.new 10 pkScript, 0)]⟩], [], []⟩,
    "cMoBjaYS6EraKLNqrNN8DvN93Nnt6pJNfWkYM8pUufYQB5EVZ7SR"⟩

def p2pkh : List UInt8 := [opDup, opHash160, 20] ++ pubkeyHash.val ++ [opEqualverify, opChecksig]

def receiver : String := "mpzx6iZ1WX8hLSeDRKdkLatXXPN1GDWVaF"

def wallet (pkScript : List UInt8) : PaymentWallet := ⟨some 0, [account pkScript], false, [⟨true, []⟩]⟩

end OneKey

end BitcoinNode
