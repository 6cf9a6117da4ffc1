import BitcoinNode.Linkage

/-! The download of the headers. A first part of them is fetched and written to a file, or read
back from that file; then the others are fetched, and those that are dated late enough are handed
over to the download of the blocks. Logs and events for the user interface are left out. -/
namespace BitcoinNode

/-- The settings that the download of the headers reads. -/
structure HeadersConfig where
  protocolVersion : Int32
  headersInDisk : Nat
  firstBlockDate : String
  dateFormat : String

/-- `Utc.datetime_from_str(date, format)?.timestamp()` of `chrono`. -/
class Chrono where
  timestampFromStr (date format : String) : Except String Int64

structure GetHeadersPayload where
  version : UInt32
  hashCount : CompactSizeUint
  locatorHashes : List Hash
  stopHash : Hash

def GetHeadersPayload.toLeBytes (p : GetHeadersPayload) : List UInt8 :=
  u32ToLeBytes p.version ++ p.hashCount.marshalling ++ p.locatorHashes.flatMap (·.val) ++
    p.stopHash.val

structure GetHeadersMessage where
  header : HeaderMessage
  payload : GetHeadersPayload

def GetHeadersMessage.buildGetheadersMessage [Crates] (config : HeadersConfig)
    (locatorHashes : List Hash) : GetHeadersMessage :=
  let payload : GetHeadersPayload :=
    ⟨config.protocolVersion.toUInt32, CompactSizeUint.new 1, locatorHashes, U8Array.replicate 32 0⟩
  let bytes := payload.toLeBytes
  ⟨⟨startString, "getheaders", UInt32.ofNat bytes.length, getChecksum bytes⟩, payload⟩

/-- A connection: its peer takes so many more requests and sends these headers payloads, and then
writing and reading fail. -/
structure HeadersStream where
  requests : Nat
  incoming : List (List UInt8)
  failure : String
  written : List GetHeadersMessage

/-- The channel to the download of the blocks, whose receiver takes so many more messages. -/
structure HeadersSender where
  accepts : Nat
  sent : List (List BlockHeader)

/-- What the download of the headers works on. `node` is the connection in use, taken from the
end of `nodes`. -/
structure HeadersDownload where
  nodes : List HeadersStream
  node : HeadersStream
  blockchain : Blockchain
  tx : HeadersSender
  file : List UInt8

abbrev DownloadingHeaders (α : Type) := Proc HeadersDownload NodeCustomErrors α

def genesisBlockHash : Hash :=
  ⟨[0x00, 0x00, 0x00, 0x00, 0x09, 0x33, 0xea, 0x01, 0xad, 0x0e, 0xe9, 0x84, 0x20, 0x97, 0x79, 0xba,
    0xae, 0xc3, 0xce, 0xd9, 0x0f, 0xa3, 0xf4, 0x08, 0x71, 0x95, 0x26, 0xf8, 0xd7, 0x7f, 0x49, 0x43],
    rfl⟩

def getNode : DownloadingHeaders Unit := do
  let s ← Proc.get
  match s.nodes.getLast? with
  | some node => Proc.modify fun s => { s with nodes := s.nodes.dropLast, node }
  | none =>
    Proc.lift (Outcome.fail (.BlockchainDownloadError "Error there are no more nodes available"))

def returnNodeToVec : DownloadingHeaders Unit :=
  Proc.modify fun s => { s with nodes := s.nodes ++ [s.node] }

/-- `while let Err(err) = download(&mut node) { node = get_node(nodes)?; }`, where the errors that
`stop` translates end the loop. -/
def tryNodes (download : DownloadingHeaders Unit) (stop : NodeCustomErrors → Option NodeCustomErrors) :
    (nodes : Nat) → DownloadingHeaders Unit
  | 0 => Proc.lift Outcome.abort
  | nodes + 1 => do
    getNode
    match ← Proc.attempt download with
    | .ok () => return ()
    | .error err =>
      match stop err with
      | some err => Proc.lift (Outcome.fail err)
      | none => tryNodes download stop nodes

@[irreducible] def headersMessageSize : Nat := 162003

theorem headers_message_size_pos : 0 < headersMessageSize := by simp [headersMessageSize]

section HeadersDownload

variable [Crates]

def getLastHashHeaderDownloaded (headers : List BlockHeader) : Outcome NodeCustomErrors Hash :=
  match headers.getLast? with
  | some header => if header = genesisBlockHeader then .ok genesisBlockHash else .ok header.hash
  | none => Outcome.fail (.BlockchainDownloadError "Error, there are not headers downloaded!\n")

def requestHeadersFromNode (config : HeadersConfig) : DownloadingHeaders Unit := do
  let s ← Proc.get
  let lastHashHeaderDownloaded ← Proc.lift (getLastHashHeaderDownloaded s.blockchain.headers)
  match s.node.requests with
  | 0 => Proc.lift (Outcome.fail (.WriteNodeError s.node.failure))
  | requests + 1 =>
    let message := GetHeadersMessage.buildGetheadersMessage config [lastHashHeaderDownloaded]
    Proc.modify fun s =>
      { s with node := { s.node with requests, written := s.node.written ++ [message] } }

/-- The payload of the next headers message; other messages are skipped. -/
def readHeadersPayload : DownloadingHeaders (List UInt8) := do
  let s ← Proc.get
  match s.node.incoming with
  | [] => Proc.lift (Outcome.fail (.ReadNodeError s.node.failure))
  | payload :: incoming => do
    Proc.modify fun s => { s with node := { s.node with incoming } }
    return payload

/-- Reads a headers message and, once it is decoded, `write`s its payload to the file. -/
def readHeaders (write : List UInt8 → List UInt8 → List UInt8) :
    DownloadingHeaders (List BlockHeader) := do
  let payload ← readHeadersPayload
  let (headers, _) ← Proc.lift
    (Outcome.mapErr .UnmarshallingError (HeadersMessage.unmarshalling payload 0))
  Proc.modify fun s => { s with file := write s.file payload }
  return headers

def HeadersMessage.readFrom : DownloadingHeaders (List BlockHeader) := readHeaders fun file _ => file

/-- The payload is appended as it came. -/
def HeadersMessage.readFromNodeAndWriteToFile : DownloadingHeaders (List BlockHeader) :=
  readHeaders (· ++ ·)

/-- Every error becomes this one. -/
def orDownloadError (text : String) (m : DownloadingHeaders α) : DownloadingHeaders α :=
  ⟨fun s => (Outcome.mapErr (fun _ => .BlockchainDownloadError text) (m.run s).1, (m.run s).2)⟩

def receiveHeadersFromNode : DownloadingHeaders (List BlockHeader) :=
  orDownloadError "Error trying to read headers" HeadersMessage.readFrom

def receiveAndPersistInitialHeadersFromNode : DownloadingHeaders (List BlockHeader) :=
  orDownloadError "Error trying to read and save headers in disk"
    HeadersMessage.readFromNodeAndWriteToFile

/-- The four steps of every round of both loops. Heights are loaded before anything is checked. -/
def nextHeaders (config : HeadersConfig) (receive : DownloadingHeaders (List BlockHeader)) :
    DownloadingHeaders (List BlockHeader) := do
  requestHeadersFromNode config
  let headersRead ← receive
  Proc.modify fun s => { s with blockchain := loadHeaderHeights headersRead s.blockchain }
  Proc.zoom (·.blockchain.headers) (fun headers s => { s with blockchain := { s.blockchain with headers } })
    (storeHeadersInLocalHeadersVec headersRead)
  return headersRead

/-- `while headers.len() < config.headers_in_disk { .. }`. A round takes a payload or fails. -/
def initialHeadersLoop (config : HeadersConfig) : (rounds : Nat) → DownloadingHeaders Unit
  | 0 => Proc.lift Outcome.abort
  | rounds + 1 => do
    let s ← Proc.get
    if s.blockchain.headers.length < config.headersInDisk then do
      let _ ← nextHeaders config receiveAndPersistInitialHeadersFromNode
      initialHeadersLoop config rounds
    else return ()

def downloadAndPersistInitialHeadersFromNode (config : HeadersConfig) : DownloadingHeaders Unit := do
  let s ← Proc.get
  initialHeadersLoop config (s.node.incoming.length + 1)

def downloadAndPersistHeaders (config : HeadersConfig) : DownloadingHeaders Unit := do
  Proc.modify fun s => { s with file := [] }
  let s ← Proc.get
  tryNodes (downloadAndPersistInitialHeadersFromNode config) (fun _ => none)
    (s.nodes.length + 1)
  returnNodeToVec

/-- `amount += 2000` on an `i32`. -/
def add2000 (amount : Int32) : Checked Int32 :=
  if amount.toInt + 2000 < 2 ^ 31 then .ok (amount + 2000) else Outcome.panic

/-- `while i < data.len() { .. }`; a slice that ends behind the data panics. -/
def readRecords (data : List UInt8) :
    (rounds : Nat) → (amount : Int32) → (i : Nat) → Proc Blockchain NodeCustomErrors Unit
  | 0, _, _ => Proc.lift Outcome.abort
  | rounds + 1, amount, i =>
    if i < data.length then do
      let amount ← Proc.lift (add2000 amount).widen
      if data.length < i + headersMessageSize then Proc.lift Outcome.panic
      else do
        let messageBytes := (data.drop i).take headersMessageSize
        let (unmarshalledHeaders, _) ← Proc.lift
          (Outcome.mapErr .UnmarshallingError (HeadersMessage.unmarshalling messageBytes 0))
        Proc.modify (loadHeaderHeights unmarshalledHeaders)
        Proc.modify fun chain => { chain with headers := chain.headers ++ unmarshalledHeaders }
        readRecords data rounds amount (i + headersMessageSize)
    else return ()

def readHeadersFromDisk (file : List UInt8) : Proc Blockchain NodeCustomErrors Unit :=
  readRecords file (file.length + 1) 0 0

def downloadBlocksInOtherThread (headersRead : List BlockHeader) : DownloadingHeaders Unit := do
  let s ← Proc.get
  match s.tx.accepts with
  | 0 => Proc.lift (Outcome.fail (.ThreadChannelError "sending on a closed channel"))
  | accepts + 1 => Proc.modify fun s => { s with tx := ⟨accepts, s.tx.sent ++ [headersRead]⟩ }

variable [Chrono]

/-- `date_time.timestamp() as u32` -/
def getFirstBlockTimestamp (config : HeadersConfig) : Outcome NodeCustomErrors UInt32 :=
  match Chrono.timestampFromStr config.firstBlockDate config.dateFormat with
  | .ok timestamp => .ok timestamp.toUInt64.toUInt32
  | .error err => Outcome.fail (.OtherError err)

def firstBlockToDownloadIsInHeaders (config : HeadersConfig) (headers : List BlockHeader) :
    Outcome NodeCustomErrors Bool := do
  let blockTimestamp ← getFirstBlockTimestamp config
  match headers.getLast? with
  | some lastHeader => return blockTimestamp ≤ lastHeader.time
  | none => Outcome.fail (.OtherError "Can not get last header")

def searchFirstHeaderBlockToDownload (config : HeadersConfig) (headers : List BlockHeader)
    (found : Bool) : Outcome NodeCustomErrors (List BlockHeader × Bool) := do
  let timestamp ← getFirstBlockTimestamp config
  return headers.foldl (fun (firstHeadersFromBlocksToDownload, found) header =>
    let found := found || timestamp ≤ header.time
    (if found then firstHeadersFromBlocksToDownload ++ [header]
      else firstHeadersFromBlocksToDownload, found)) ([], found)

def downloadFirstBlocksInOtherThread (config : HeadersConfig) (headersRead : List BlockHeader)
    (firstBlockFound : Bool) : DownloadingHeaders Bool := do
  let (firstBlockHeadersToDownload, found) ← Proc.lift
    (Outcome.mapErr (fun err => .FirstBlockNotFoundError err.fmt)
      (searchFirstHeaderBlockToDownload config headersRead firstBlockFound))
  downloadBlocksInOtherThread firstBlockHeadersToDownload
  return found

/-- Hands over what has to be downloaded of a batch, and tells whether the first block is found. -/
def handOver (config : HeadersConfig) (headersRead : List BlockHeader) :
    (firstBlockFound : Bool) → DownloadingHeaders Bool
  | true => do
    downloadBlocksInOtherThread headersRead
    return true
  | false => do
    if ← Proc.lift (firstBlockToDownloadIsInHeaders config headersRead) then
      downloadFirstBlocksInOtherThread config headersRead false
    else return false

/-- `while headers_read.len() == 2000 { .. }`. A round takes a payload or fails. -/
def missingHeadersLoop (config : HeadersConfig) :
    (rounds : Nat) → List BlockHeader → (firstBlockFound : Bool) → DownloadingHeaders Unit
  | 0, _, _ => Proc.lift Outcome.abort
  | rounds + 1, headersRead, firstBlockFound =>
    if headersRead.length = 2000 then do
      let headersRead ← nextHeaders config receiveHeadersFromNode
      let firstBlockFound ← handOver config headersRead firstBlockFound
      missingHeadersLoop config rounds headersRead firstBlockFound
    else return ()

def downloadMissingHeadersFromNode (config : HeadersConfig) : DownloadingHeaders Unit := do
  let s ← Proc.get
  let headersRead ← nextHeaders config receiveHeadersFromNode
  missingHeadersLoop config (s.node.incoming.length + 1) headersRead false

/-- A closed channel ends the download, after any other error the next node is tried. -/
def channelClosed : NodeCustomErrors → Option NodeCustomErrors
  | .ThreadChannelError _ => some (.ThreadChannelError
      "Error the channel that comunicates the headers and blocks paralell download is closed")
  | _ => none

def downloadMissingHeaders (config : HeadersConfig) : DownloadingHeaders Unit := do
  let s ← Proc.get
  tryNodes (downloadMissingHeadersFromNode config) channelClosed (s.nodes.length + 1)
  returnNodeToVec

end HeadersDownload

/-- A payload and the headers it decodes to. -/
structure Offer where
  payload : List UInt8
  headersRead : List BlockHeader

/-- The payloads before the first one that does not decode. -/
def offers : List (List UInt8) → List Offer
  | [] => []
  | payload :: rest =>
    match HeadersMessage.unmarshalling payload 0 with
    | .ok (headersRead, _) => ⟨payload, headersRead⟩ :: offers rest
    | .error _ => []

/-- What can be fetched from a connection before it fails. -/
def HeadersStream.offers (node : HeadersStream) : List Offer :=
  BitcoinNode.offers (node.incoming.take node.requests)

/-- The failure that ends the download of the headers. -/
def ChannelClosed : Failure NodeCustomErrors → Prop
  | .err err => channelClosed err ≠ none
  | .panic => False
  | .abort => False

/-- `receive` decodes the next payload and writes it as `write` does, or fails. -/
structure Receives (receive : DownloadingHeaders (List BlockHeader))
    (write : List UInt8 → List UInt8 → List UInt8) : Prop where
  offer : ∀ s payload incoming headersRead i, s.node.incoming = payload :: incoming →
    HeadersMessage.unmarshalling payload 0 = .ok (headersRead, i) →
      receive.run s = (.ok headersRead,
        { s with node := { s.node with incoming }, file := write s.file payload })
  nothing : ∀ s, BitcoinNode.offers (s.node.incoming.take 1) = [] → ∃ e node, ¬ChannelClosed e ∧
    receive.run s = (.error e, { s with node })

theorem read_headers_ok {write : List UInt8 → List UInt8 → List UInt8} {s : HeadersDownload}
    {payload : List UInt8} {incoming : List (List UInt8)} {headersRead : List BlockHeader} {i : Nat}
    (atFront : s.node.incoming = payload :: incoming)
    (decoded : HeadersMessage.unmarshalling payload 0 = .ok (headersRead, i)) :
    (readHeaders write).run s = (.ok headersRead,
      { s with node := { s.node with incoming }, file := write s.file payload }) := by
  simp [readHeaders, readHeadersPayload, Proc.run_bind, atFront, decoded]

theorem read_headers_error (write : List UInt8 → List UInt8 → List UInt8) {s : HeadersDownload}
    (nothing : BitcoinNode.offers (s.node.incoming.take 1) = []) :
    ∃ e node, (readHeaders write).run s = (.error e, { s with node }) := by
  rcases incoming : s.node.incoming with _ | ⟨payload, rest⟩
  · refine ⟨.err (.ReadNodeError s.node.failure), s.node, ?_⟩
    simp [readHeaders, readHeadersPayload, Proc.run_bind, incoming, Outcome.fail]
  · rcases decoded : HeadersMessage.unmarshalling payload 0 with e | _
    · obtain ⟨e', failed⟩ : ∃ e', Outcome.mapErr NodeCustomErrors.UnmarshallingError
          (HeadersMessage.unmarshalling payload 0) = .error e' := by
        rw [decoded]
        rcases e with _ | _ | _ <;> exact ⟨_, rfl⟩
      refine ⟨e', { s.node with incoming := rest }, ?_⟩
      simp [readHeaders, readHeadersPayload, Proc.run_bind, incoming, failed]
    · simp [incoming, offers, decoded] at nothing

theorem or_download_error_receives (text : String) (write : List UInt8 → List UInt8 → List UInt8) :
    Receives (orDownloadError text (readHeaders write)) write := by
  constructor
  case offer =>
    intro s payload incoming headersRead i atFront decoded
    simp [orDownloadError, read_headers_ok atFront decoded]
  case nothing =>
    intro s nothing
    obtain ⟨e, node, failed⟩ := read_headers_error write nothing
    simp only [orDownloadError, failed]
    cases e with
    | err err => exact ⟨_, node, by simp [ChannelClosed, channelClosed], rfl⟩
    | panic => exact ⟨.panic, node, id, rfl⟩
    | abort => exact ⟨.abort, node, id, rfl⟩

theorem HeadersStream.offers_cons {node : HeadersStream} {offer : Offer} {rest : List Offer}
    (first : node.offers = offer :: rest) : ∃ requests incoming i,
      node.requests = requests + 1 ∧ node.incoming = offer.payload :: incoming ∧
        HeadersMessage.unmarshalling offer.payload 0 = .ok (offer.headersRead, i) ∧
        BitcoinNode.offers (incoming.take requests) = rest := by
  rw [offers] at first
  rcases left : node.requests with _ | requests
  · simp [left, BitcoinNode.offers] at first
  rcases atFront : node.incoming with _ | ⟨payload, incoming⟩
  · simp [atFront, BitcoinNode.offers] at first
  rw [left, atFront, List.take_succ_cons, BitcoinNode.offers] at first
  rcases decoded : HeadersMessage.unmarshalling payload 0 with e | ⟨headersRead, i⟩
  · simp [decoded] at first
  · simp only [decoded, List.cons.injEq] at first
    obtain ⟨rfl, rfl⟩ := first
    exact ⟨requests, incoming, i, rfl, rfl, decoded, rfl⟩

/-- A node is taken, and it is the last one tried or fails with an error that is put up with. -/
theorem try_nodes_ok {download : DownloadingHeaders Unit}
    {stop : NodeCustomErrors → Option NodeCustomErrors} {n : Nat} {s s' : HeadersDownload}
    (ran : (tryNodes download stop n).run s = (.ok (), s')) : ∃ rest node n', n = n' + 1 ∧
      s.nodes = rest ++ [node] ∧ (download.run { s with nodes := rest, node } = (.ok (), s') ∨
        ∃ err t, download.run { s with nodes := rest, node } = (.error (.err err), t) ∧
          stop err = none ∧ (tryNodes download stop n').run t = (.ok (), s')) := by
  rcases n with _ | n
  · cases (Prod.mk.inj ran).1
  rcases atEnd : s.nodes.getLast? with _ | node
  · simp [tryNodes, getNode, Proc.run_bind, atEnd, Outcome.fail] at ran
  refine ⟨s.nodes.dropLast, node, n, rfl, (List.dropLast_append_getLast? node atEnd).symm, ?_⟩
  have taken : getNode.run s = (.ok (), { s with nodes := s.nodes.dropLast, node }) := by
    simp [getNode, Proc.run_bind, atEnd]
  rw [tryNodes, Proc.run_bind_ok _ taken, Proc.run_bind] at ran
  simp only [Proc.attempt] at ran
  rcases result : download.run { s with nodes := s.nodes.dropLast, node } with ⟨(err | _ | _) | _, t⟩
  · rw [result] at ran
    rcases caught : stop err with _ | err'
    · exact .inr ⟨err, t, rfl, caught, by simpa [Outcome.attempt, caught] using ran⟩
    · simp [Outcome.attempt, caught, Outcome.fail] at ran
  · simp [result, Outcome.attempt, Outcome.panic] at ran
  · simp [result, Outcome.attempt, Outcome.abort] at ran
  · exact .inl (by simpa [result, Outcome.attempt] using ran)

/-- A connection whose peer sends these batches, one for each request. -/
def HeadersStream.serving (batches : List (List BlockHeader)) : HeadersStream :=
  ⟨batches.length, batches.map headersMessagePayload, "", []⟩

theorem HeadersStream.serving_offers {batches : List (List BlockHeader)}
    (few : ∀ batch ∈ batches, batch.length < 2 ^ 64) :
    (serving batches).offers = batches.map fun batch => ⟨headersMessagePayload batch, batch⟩ := by
  have all : (batches.map headersMessagePayload).take batches.length = batches.map headersMessagePayload :=
    List.take_of_length_le (by simp)
  rw [offers, serving, all]
  clear all
  induction batches with
  | nil => rfl
  | cons batch rest ih =>
    obtain ⟨first, others⟩ := List.forall_mem_cons.mp few
    obtain ⟨stop, decoded⟩ := HeadersMessage.unmarshalling_payload first
    simp only [List.map_cons, BitcoinNode.offers, decoded, ih others]

section OneNode

variable {s : HeadersDownload} {node : HeadersStream}

theorem get_node_only (only : s.nodes = [node]) : getNode.run s = (.ok (), { s with nodes := [], node }) := by
  simp [getNode, Proc.run_bind, only]

theorem get_node_nothing (nothing : s.nodes = []) : ∃ e, getNode.run s = (.error e, s) := by
  refine ⟨.err (.BlockchainDownloadError "Error there are no more nodes available"), ?_⟩
  simp [getNode, Proc.run_bind, nothing, Outcome.fail]

/-- The only node is tried, and no other one after an error. -/
theorem try_nodes_only {download : DownloadingHeaders Unit} (stop : NodeCustomErrors → Option NodeCustomErrors)
    (only : s.nodes = [node]) {result : Outcome NodeCustomErrors Unit} {t : HeadersDownload}
    (ran : download.run { s with nodes := [], node } = (result, t)) (nothing : t.nodes = [])
    (goesOn : ∀ e, result = .error (.err e) → stop e = none) : ∃ result',
      (tryNodes download stop (s.nodes.length + 1)).run s = (result', t) ∧
      (result' = .ok () ↔ result = .ok ()) := by
  have one : s.nodes.length = 1 := by rw [only, List.length_singleton]
  rw [one, tryNodes, Proc.run_bind_ok _ (get_node_only only)]
  rcases result with (e | _ | _) | ⟨⟩
  · obtain ⟨e', left⟩ := get_node_nothing nothing
    refine ⟨.error e', ?_, by simp⟩
    rw [Proc.run_bind_ok _ (Proc.run_attempt_err ran)]
    simp only [goesOn e rfl]
    rw [tryNodes, Proc.run_bind_error _ left]
  · have failed : (Proc.attempt download : DownloadingHeaders _).run { s with nodes := [], node } =
        (.error .panic, t) := by
      simp only [Proc.attempt, ran]
      rfl
    exact ⟨.error .panic, Proc.run_bind_error _ failed, by simp⟩
  · have failed : (Proc.attempt download : DownloadingHeaders _).run { s with nodes := [], node } =
        (.error .abort, t) := by
      simp only [Proc.attempt, ran]
      rfl
    exact ⟨.error .abort, Proc.run_bind_error _ failed, by simp⟩
  · exact ⟨.ok (), by rw [Proc.run_bind_ok _ (Proc.run_attempt_ok ran)]; rfl, Iff.rfl⟩

end OneNode

section Rounds

variable [Crates]

/-- What a batch does to the chain: its heights are loaded even if it is not stored. -/
def Offer.apply (chain : Blockchain) (offer : Offer) : Blockchain :=
  { loadHeaderHeights offer.headersRead chain with
    headers := if validateHeaders offer.headersRead = .ok () then chain.headers ++ offer.headersRead
      else chain.headers }

theorem validate_headers_open {headers : List BlockHeader} {e : Failure NodeCustomErrors}
    (failed : validateHeaders headers = .error e) : ¬ChannelClosed e := by
  induction headers with
  | nil => simp [validateHeaders] at failed
  | cons header rest ih =>
    rcases validated : header.validate with (empty | _ | _) | (_ | _)
    · exact empty.elim
    · obtain rfl : .panic = e := by simpa [validateHeaders, validated, Failure.widen] using failed
      exact id
    · obtain rfl : .abort = e := by simpa [validateHeaders, validated, Failure.widen] using failed
      exact id
    · simp only [validateHeaders, validated, Outcome.widen_ok, Outcome.bind_ok, Outcome.fail] at failed
      cases failed
      simp [ChannelClosed, channelClosed]
    · exact ih (by simpa [validateHeaders, validated] using failed)

variable (config : HeadersConfig) {receive : DownloadingHeaders (List BlockHeader)}
  {write : List UInt8 → List UInt8 → List UInt8} {s : HeadersDownload}

theorem last_hash_of_stored {headers : List BlockHeader} (stored : headers ≠ []) :
    ∃ hash, getLastHashHeaderDownloaded headers = .ok hash := by
  rw [getLastHashHeaderDownloaded, List.getLast?_eq_some_getLast stored]
  simp only
  split_ifs <;> exact ⟨_, rfl⟩

theorem request_headers_ok {hash : Hash} {requests : Nat}
    (last : getLastHashHeaderDownloaded s.blockchain.headers = .ok hash) (left : s.node.requests = requests + 1) :
    (requestHeadersFromNode config).run s = (.ok (), { s with node := { s.node with
      requests, written := s.node.written ++ [.buildGetheadersMessage config [hash]] } }) := by
  simp [requestHeadersFromNode, Proc.run_bind, last, left]

theorem request_headers_run (stored : s.blockchain.headers ≠ []) :
    (s.node.requests = 0 ∧ (requestHeadersFromNode config).run s =
        (Outcome.fail (.WriteNodeError s.node.failure), s)) ∨
      ∃ requests written, s.node.requests = requests + 1 ∧ (requestHeadersFromNode config).run s =
        (.ok (), { s with node := { s.node with requests, written } }) := by
  obtain ⟨hash, last⟩ := last_hash_of_stored stored
  rcases left : s.node.requests with _ | requests
  · exact .inl ⟨rfl, by simp [requestHeadersFromNode, Proc.run_bind, last, left]⟩
  · exact .inr ⟨requests, _, rfl, request_headers_ok config last left⟩

theorem next_headers_nothing (receives : Receives receive write) (stored : s.blockchain.headers ≠ [])
    (nothing : s.node.offers = []) : ∃ e node, ¬ChannelClosed e ∧
      (nextHeaders config receive).run s = (.error e, { s with node }) := by
  rcases request_headers_run config stored with ⟨_, failed⟩ | ⟨requests, written, left, sent⟩
  · refine ⟨_, s.node, ?_, Proc.run_bind_error _ failed⟩
    simp [ChannelClosed, channelClosed]
  · have none : BitcoinNode.offers (s.node.incoming.take 1) = [] := by
      rw [HeadersStream.offers, left] at nothing
      rcases atFront : s.node.incoming with _ | ⟨payload, rest⟩
      · rfl
      · rw [atFront, List.take_succ_cons, offers] at nothing
        rw [List.take_succ_cons, offers]
        split at nothing <;> first | rfl | contradiction
    obtain ⟨e, node, other, failed⟩ := receives.nothing
      { s with node := { s.node with requests, written } } none
    refine ⟨e, node, other, ?_⟩
    rw [nextHeaders, Proc.run_bind_ok _ sent, Proc.run_bind_error _ failed]

theorem next_headers_offer (receives : Receives receive write) (stored : s.blockchain.headers ≠ [])
    {offer : Offer} {rest : List Offer} (first : s.node.offers = offer :: rest) :
    ∃ node, node.offers = rest ∧ node.incoming.length < s.node.incoming.length ∧
      (nextHeaders config receive).run s =
        (do validateHeaders offer.headersRead; return offer.headersRead,
          { s with node, blockchain := offer.apply s.blockchain, file := write s.file offer.payload }) := by
  obtain ⟨requests, incoming, i, left, atFront, decoded, others⟩ := HeadersStream.offers_cons first
  rcases request_headers_run config stored with ⟨none, _⟩ | ⟨requests', written, left', sent⟩
  · omega
  · obtain rfl : requests' = requests := by omega
    refine ⟨{ s.node with requests := requests', written, incoming }, others, by simp [atFront], ?_⟩
    have received := receives.offer { s with node := { s.node with requests := requests', written } }
      offer.payload incoming offer.headersRead i atFront decoded
    rw [nextHeaders, Proc.run_bind_ok _ sent, Proc.run_bind_ok _ received]
    rcases valid : validateHeaders offer.headersRead with e | _
    · simp [Proc.run_bind, storeHeadersInLocalHeadersVec, valid, Offer.apply, loadHeaderHeights]
    · simp [Proc.run_bind, storeHeadersInLocalHeadersVec, valid, Offer.apply, loadHeaderHeights]

end Rounds

end BitcoinNode
