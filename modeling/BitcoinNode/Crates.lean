import BitcoinNode.Lib.Sha256
import BitcoinNode.Lib.Base58

/-! Functions the node takes from third-party crates. Results hold for every choice of them;
`Crates.standard` is the documented one and is what concrete runs are evaluated with. -/
namespace BitcoinNode

class Crates where
  /-- `bitcoin_hashes::sha256` and `k256::sha2::Sha256` -/
  sha256 : List UInt8 → U8Array 32
  /-- `bs58::encode(..).into_string()` -/
  bs58Encode : List UInt8 → String

/-- `bitcoin_hashes::sha256d`, documented as SHA-256 applied twice. -/
def sha256d [Crates] (bytes : List UInt8) : U8Array 32 := Crates.sha256 (Crates.sha256 bytes).val

@[reducible] def Crates.standard : Crates where
  sha256 := Sha256.digest
  bs58Encode := Base58.encode

end BitcoinNode
