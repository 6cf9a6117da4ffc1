import BitcoinNode.UtxoSet

/-! The data the node shares between its threads, and how it is searched. -/
namespace BitcoinNode

inductive NodeCustomErrors where
  | ThreadJoinError (msg : String)
  | LockError (msg : String)
  | ReadNodeError (msg : String)
  | WriteNodeError (msg : String)
  | CanNotRead (msg : String)
  | ThreadChannelError (msg : String)
  | UnmarshallingError (msg : String)
  | SocketError (msg : String)
  | HandshakeError (msg : String)
  | FirstBlockNotFoundError (msg : String)
  | InvalidHeaderError (msg : String)
  | ReadingFileError (msg : String)
  | WritingInFileError (msg : String)
  | ClosingFileError (msg : String)
  | OpeningFileError (msg : String)
  | ArgumentsError (msg : String)
  | BlockchainDownloadError (msg : String)
  | OtherError (msg : String)
  | UtxoError (msg : String)
  deriving DecidableEq, Repr

/-- The text of an error, as `Display` writes it. -/
def NodeCustomErrors.fmt : NodeCustomErrors → String
  | ThreadJoinError msg => "ThreadJoinError Error: " ++ msg
  | LockError msg => "LockError Error: " ++ msg
  | ReadNodeError msg => "Can not read from socket Error: " ++ msg
  | WriteNodeError msg => "Can not write in socket Error: " ++ msg
  | CanNotRead msg => "No more elements in list Error: " ++ msg
  | ThreadChannelError msg => "Can not send elements to channel Error: " ++ msg
  | UnmarshallingError msg => "Can not unmarshall bytes Error: " ++ msg
  | SocketError msg => "Socket-TcpStream Error: " ++ msg
  | HandshakeError msg => "HandShake Error: " ++ msg
  | FirstBlockNotFoundError msg => "FirstBlockNotFound Error: " ++ msg
  | InvalidHeaderError msg => "InvalidHeader Error: " ++ msg
  | ReadingFileError msg => "Failed to read file. File Error: " ++ msg
  | WritingInFileError msg => "Failed to write in file. File Error: " ++ msg
  | ClosingFileError msg => "Failed to close file. File Error: " ++ msg
  | OpeningFileError msg => "Failed to open file. File Error: " ++ msg
  | ArgumentsError msg => "Failed to parse arguments. Arguments Error: " ++ msg
  | BlockchainDownloadError msg => "Error during the Blockchain download: " ++ msg
  | OtherError msg => "Error: " ++ msg
  | UtxoError msg => "Error during the Utxo setup: " ++ msg

def genesisBlockHeader : BlockHeader :=
  ⟨1, U8Array.replicate 32 0,
    ⟨[59, 163, 237, 253, 122, 123, 18, 178, 122, 199, 44, 62, 103, 118, 143, 97, 127, 200, 27, 195,
      136, 138, 81, 50, 58, 159, 184, 170, 75, 30, 94, 74], rfl⟩, 1296677802, 486604799, 414098458⟩

/-- `headerHeights` is meant to give the position of a header by its hash. -/
structure Blockchain where
  headers : List BlockHeader
  blocks : HashMap Hash Block
  headerHeights : HashMap Hash Nat
  utxoSet : UtxoSet

/-- The key that stands for the hash of the genesis block. -/
def sentinel : Hash := U8Array.replicate 32 0

namespace Blockchain

def initial : Blockchain :=
  ⟨[genesisBlockHeader], ∅, (∅ : HashMap Hash Nat).insert sentinel 0, ∅⟩

def searchBlock (chain : Blockchain) (hash : Hash) : Option Block := chain.blocks.get hash

def searchHeader (chain : Blockchain) (hash : Hash) : Option (BlockHeader × Nat) := do
  let height ← chain.headerHeights.get hash
  let header ← chain.headers[height]?
  return (header, height)

theorem search_header_eq_some {chain : Blockchain} {hash : Hash} {header : BlockHeader} {k : Nat} :
    chain.searchHeader hash = some (header, k) ↔
      chain.headerHeights.get hash = some k ∧ chain.headers[k]? = some header := by
  simp only [searchHeader, Option.bind_eq_bind, Option.bind_eq_some_iff, Option.pure_def,
    Option.some.injEq, Prod.mk.injEq]
  constructor
  · rintro ⟨_, found, _, stored, rfl, rfl⟩
    exact ⟨found, stored⟩
  · rintro ⟨found, stored⟩
    exact ⟨k, found, header, stored, rfl, rfl⟩

end Blockchain

end BitcoinNode
