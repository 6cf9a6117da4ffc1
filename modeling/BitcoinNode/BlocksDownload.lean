import BitcoinNode.Blockchain
import BitcoinNode.Messages
import BitcoinNode.Lib.Interleaving
import Mathlib.Logic.Relation

/-! The parallel initial download. Headers arrive on one channel and are divided among threads;
each thread hands the batches it receives to the thread of the utxo set, and stores its blocks
when it is done. -/
namespace BitcoinNode

/-- The settings that the download reads. -/
structure Config where
  nThreads : Nat
  blocksDownloadPerNode : Nat
  heightFirstBlockToDownload : Nat

/-- A connection: its peer takes so many more requests and sends these block payloads, and then
writing and reading fail. -/
structure TcpStream where
  requests : Nat
  incoming : List (List UInt8)
  failure : String
  written : List GetDataMessage

/-- What a download thread does to what it shares. -/
inductive Effect where
  | storeHeaders (headersRead : List BlockHeader)
  | sendHeaders (headers : List BlockHeader)
  | sendBlocks (blocks : List Block)
  | storeBlocks (blocks : HashMap Hash Block)

structure DownloadThread where
  node : TcpStream
  effects : List Effect

abbrev Downloading (α : Type) := Proc DownloadThread NodeCustomErrors α

/-- `{:?}` of a text that needs no escapes. -/
def debug (text : String) : String := "\"" ++ text ++ "\""

/-- `slice::chunks`, which panics on a size of 0. -/
def chunks (chunkSize : Nat) (xs : List α) : Checked (List (List α)) :=
  if chunkSize = 0 then Outcome.panic
  else .ok ((List.range ((xs.length + chunkSize - 1) / chunkSize)).map fun i =>
    (xs.drop (i * chunkSize)).take chunkSize)

/-- `(len as f64 / n_threads as f64).ceil() as usize`. The quotient is exact enough for any length
that fits in memory; dividing by 0 gives infinity or, for an empty list, NaN. -/
def equalChunkSize (len nThreads : Nat) : Nat :=
  if nThreads = 0 then if len = 0 then 0 else 2 ^ 64 - 1
  else (len + nThreads - 1) / nThreads

def divideBlocksToDownloadInEqualChunks (blocksToDownload : List BlockHeader)
    (nThreads : Nat) : Checked (List (List BlockHeader)) :=
  chunks (equalChunkSize blocksToDownload.length nThreads) blocksToDownload

/-- The chunks of `download_blocks`: few headers are left to one thread. -/
def Config.chunksToDownload (config : Config) (blocksToDownload : List BlockHeader) :
    Checked (List (List BlockHeader)) :=
  divideBlocksToDownloadInEqualChunks blocksToDownload
    (if blocksToDownload.length ≤ config.blocksDownloadPerNode then 1 else config.nThreads)

section Thread

variable [Crates]

def DownloadThread.perform (effect : Effect) : Downloading Unit :=
  Proc.modify fun t => { t with effects := t.effects ++ [effect] }

/-- `tx` tells whether there is a channel to send the headers back on. -/
def tryToDownloadBlocksFromOtherNode (tx : Bool) (headersRead : List BlockHeader) :
    Downloading Unit :=
  if tx then DownloadThread.perform (.sendHeaders headersRead) else pure ()

/-- When the request fails, the whole chunk of the thread goes back. -/
def requestBlocksFromNode (tx : Bool) (blocksChunkToDownload blocksToDownload : List BlockHeader) :
    Downloading Unit := do
  let inventory := blocksChunkToDownload.map fun block => Inventory.newBlock block.hash
  let t ← Proc.get
  match t.node.requests with
  | 0 => do
    tryToDownloadBlocksFromOtherNode tx blocksToDownload
    Proc.lift (Outcome.fail (.WriteNodeError t.node.failure))
  | requests + 1 =>
    let written := t.node.written ++ [GetDataMessage.new inventory]
    Proc.modify fun t => { t with node := { t.node with requests, written } }

def BlockMessage.readFrom : Proc TcpStream String Block := do
  let node ← Proc.get
  match node.incoming with
  | [] => Proc.lift (Outcome.fail node.failure)
  | blockMessagePayloadBytes :: incoming => do
    Proc.modify fun node => { node with incoming }
    Proc.lift (Outcome.mapErr debug (BlockMessage.unmarshalling blockMessagePayloadBytes))

/-- One round of the receiving loop. What was asked for is not compared with what came. -/
def receiveBlock (tx : Bool) (blocksToDownload : List BlockHeader) : Downloading Block := do
  let block ← Proc.attempt
    (Proc.zoom DownloadThread.node (fun node t => { t with node }) BlockMessage.readFrom)
  match block with
  | .ok block => do
    let validationResult ← Proc.lift block.validate.widen
    if validationResult.1 then return block
    else do
      tryToDownloadBlocksFromOtherNode tx blocksToDownload
      Proc.lift (Outcome.fail (.ReadNodeError
        ("Error at receiving `block` message: " ++ debug validationResult.2)))
  | .error err => do
    tryToDownloadBlocksFromOtherNode tx blocksToDownload
    Proc.lift (Outcome.fail (.ReadNodeError ("Error at receiving `block` message: " ++ err)))

def receiveRequestedBlocksFromNode (tx : Bool) (blocksToDownload : List BlockHeader) :
    (amount : Nat) → Downloading (List Block)
  | 0 => return []
  | amount + 1 => do
    let block ← receiveBlock tx blocksToDownload
    let currentBlocks ← receiveRequestedBlocksFromNode tx blocksToDownload amount
    return block :: currentBlocks

def insertBlocks (receivedBlocks : List Block) (currentBlocks : HashMap Hash Block) :
    HashMap Hash Block :=
  receivedBlocks.foldl (fun currentBlocks block => currentBlocks.insert block.hash block)
    currentBlocks

/-- The batches of one chunk; `none` when the peer failed and the thread ends without an error. -/
def downloadBatches (blockHeaders : List BlockHeader) :
    List (List BlockHeader) → HashMap Hash Block → Downloading (Option (HashMap Hash Block))
  | [], currentBlocks => return some currentBlocks
  | blocksToDownload :: rest, currentBlocks => do
    let requested ← Proc.attempt (requestBlocksFromNode true blocksToDownload blockHeaders)
    match requested with
    | .error (.WriteNodeError _) => return none
    | .error error => Proc.lift (Outcome.fail error)
    | .ok () => do
      let received ← Proc.attempt
        (receiveRequestedBlocksFromNode true blockHeaders blocksToDownload.length)
      match received with
      | .error (.ReadNodeError _) => return none
      | .error error => Proc.lift (Outcome.fail error)
      | .ok receivedBlocks => do
        DownloadThread.perform (.sendBlocks receivedBlocks)
        downloadBatches blockHeaders rest (insertBlocks receivedBlocks currentBlocks)

def downloadBlocksSingleThread (config : Config) (blockHeaders : List BlockHeader) :
    Downloading Unit := do
  let batches ← Proc.lift (chunks config.blocksDownloadPerNode blockHeaders).widen
  let downloaded ← downloadBatches blockHeaders batches ∅
  match downloaded with
  | none => return ()
  | some currentBlocks => DownloadThread.perform (.storeBlocks currentBlocks)

end Thread

/-- What the threads share: the stored headers and blocks, the headers waiting in `rx`, and all
that was ever sent to the thread of the utxo set. -/
structure Download where
  headers : List BlockHeader
  rx : List (List BlockHeader)
  rxUtxoSet : List (List Block)
  blocks : HashMap Hash Block

def Effect.apply (d : Download) : Effect → Download
  | .storeHeaders headersRead => { d with headers := d.headers ++ headersRead }
  | .sendHeaders headers => { d with rx := d.rx ++ [headers] }
  | .sendBlocks blocks => { d with rxUtxoSet := d.rxUtxoSet ++ [blocks] }
  | .storeBlocks blocks => { d with blocks := d.blocks.extend blocks }

/-- The effects of the thread that downloads the headers. -/
def Effect.OfHeaders : Effect → Prop
  | .storeHeaders _ => True
  | .sendHeaders _ => True
  | .sendBlocks _ => False
  | .storeBlocks _ => False

section Download

variable [Crates]

/-- The run of one thread on a chunk and a connection. -/
def Config.threadRun (config : Config) (job : List BlockHeader × TcpStream) :
    Outcome NodeCustomErrors Unit × DownloadThread :=
  (downloadBlocksSingleThread config job.1).run ⟨job.2, []⟩

/-- A step of the header thread, or one round of `download_blocks`: a message is taken from the
channel and divided, every chunk gets a connection from `peers`, and all threads return. What the
threads do, the header thread among them, is interleaved in any way. An empty message, too few
connections or an error in a thread end the download and are no step. -/
inductive Download.Step (config : Config) (peers : TcpStream → Prop) : Download → Download → Prop where
  | headers {d : Download} {effect : Effect} (announces : effect.OfHeaders) :
      Step config peers d (effect.apply d)
  | round {d : Download} {blocksToDownload : List BlockHeader} {rx : List (List BlockHeader)}
      {jobs : List (List BlockHeader × TcpStream)} {announced merged : List Effect}
      (received : d.rx = blocksToDownload :: rx) (nonempty : blocksToDownload ≠ [])
      (divided : config.chunksToDownload blocksToDownload = .ok (jobs.map Prod.fst))
      (connected : ∀ job ∈ jobs, peers job.2)
      (returned : ∀ job ∈ jobs, (config.threadRun job).1 = .ok ())
      (announces : ∀ effect ∈ announced, effect.OfHeaders)
      (interleaved : Interleaving (announced :: jobs.map fun job => (config.threadRun job).2.effects)
        merged) :
      Step config peers d (merged.foldl Effect.apply { d with rx })

/-- `amount_of_blocks == amount_of_headers - height_first_block_to_download`, on which
`download_blocks` returns. -/
def Download.Complete (config : Config) (d : Download) : Prop :=
  d.headers.length = config.heightFirstBlockToDownload + d.blocks.len

/-- The thread of the utxo set, once the senders are gone. -/
def loadUtxoSet (rx : List (List Block)) : Proc UtxoSet NodeCustomErrors Unit :=
  Proc.each rx fun blocks => Proc.each blocks fun block => block.giveMeUtxos.widen

end Download

end BitcoinNode
