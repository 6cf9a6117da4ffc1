import BitcoinNode.HandOver
import BitcoinNode.RequestedBlocks

/-! The parallel download step by step. The thread of the headers, the thread of the blocks and the
threads that it starts share the pool of connections, the stored headers and blocks and the channel
between the first two. Every use of one of these is a step. The thread of the utxo set keeps up. -/
namespace BitcoinNode

/-- The connected peers: the batches that a peer still has for one who stores these headers, and its
connection when it is asked for the blocks of a chunk. -/
structure Peers (ν : Type) where
  headers : ν → List BlockHeader → List (List BlockHeader)
  blocks : ν → List BlockHeader → TcpStream

/-- What is done with the batches that come after the first one of a node. -/
def announcements (timestamp : UInt32) : (found : Bool) → List (List BlockHeader) → List Effect
  | _, [] => []
  | found, batch :: rest => .storeHeaders batch ::
      ((handed timestamp found [batch]).map .sendHeaders ++
        announcements timestamp (found || late timestamp batch) rest)

/-- The first batch is only stored. -/
def nodeAnnouncements (timestamp : UInt32) : List (List BlockHeader) → List Effect
  | [] => []
  | batch :: rest => .storeHeaders batch :: announcements timestamp false rest

def nodeFinishes (timestamp : UInt32) : List (List BlockHeader) → Bool
  | [] => false
  | first :: rest => first.length ≠ 2000 || finishes timestamp false rest

inductive HeadersThread (ν : Type) where
  | starting
  | downloading (node : ν) (steps : List Effect) (finishes : Bool)
  | over (result : Outcome NodeCustomErrors Unit)

def HeadersThread.Through : HeadersThread ν → Prop
  | .starting => False
  | .downloading _ steps finishes => steps = [] ∧ finishes = true
  | .over _ => True

def HeadersThread.held : HeadersThread ν → List ν
  | .starting => []
  | .downloading node _ _ => [node]
  | .over _ => []

inductive WorkerStep where
  | effect (effect : Effect)
  | report
  | returnNode

structure Worker (ν : Type) where
  node : ν
  steps : List WorkerStep
  result : Outcome NodeCustomErrors Unit

def Worker.held (w : Worker ν) : List ν := if w.steps.isEmpty then [] else [w.node]

def Effect.stores : Effect → Bool
  | .storeBlocks _ => true
  | _ => false

def Effect.sendsHeaders : Effect → Bool
  | .sendHeaders _ => true
  | _ => false

/-- `downloadBlocksSingleThread` on a node. Once the blocks are stored their number is reported
and the node goes back to the pool; a thread that gave up drops its node. -/
def Config.worker [Crates] (config : Config) (peers : Peers ν) (node : ν) (chunk : List BlockHeader) :
    Worker ν :=
  let run := config.threadRun (chunk, peers.blocks node chunk)
  ⟨node, run.2.effects.map .effect ++ if run.2.effects.any Effect.stores then [.report, .returnNode] else [],
    run.1⟩

inductive BlocksThread where
  | receiving
  | starting (chunks : List (List BlockHeader))
  | joining
  | counting
  | comparing (amountOfHeaders : Nat)
  | over (result : Outcome NodeCustomErrors Unit)

def noMoreNodes : Outcome NodeCustomErrors Unit :=
  Outcome.fail (.BlockchainDownloadError "Error there are no more nodes available")

def channelIsClosed : Outcome NodeCustomErrors Unit :=
  Outcome.fail (.ThreadChannelError
    "Error the channel that comunicates the headers and blocks paralell download is closed")

/-- `handle.join()??` -/
def joined : Outcome NodeCustomErrors Unit → Outcome NodeCustomErrors Unit
  | .ok () => .ok ()
  | .error (.err err) => Outcome.fail err
  | .error .panic => Outcome.fail (.ThreadJoinError "Any { .. }")
  | .error .abort => Outcome.abort

/-- `nodes` is the pool, whose last element is taken. `received` is all that the thread of the blocks
ever took from the channel, `workers` are the threads that it has not joined yet. -/
structure ParallelDownload (ν : Type) where
  nodes : List ν
  shared : Download
  received : List (List BlockHeader)
  headersThread : HeadersThread ν
  blocksThread : BlocksThread
  workers : List (Worker ν)

def ParallelDownload.start (nodes : List ν) (headers : List BlockHeader) : ParallelDownload ν :=
  ⟨nodes, ⟨headers, [], [], ∅⟩, [], .starting, .receiving, []⟩

/-- The receiver of the channel is dropped when its thread ends. -/
def ParallelDownload.closed (d : ParallelDownload ν) : Bool :=
  match d.blocksThread with
  | .over _ => true
  | _ => false

inductive DownloadTurn where
  | headers
  | blocks
  | worker (i : Nat)

namespace ParallelDownload

def headersStep (peers : Peers ν) (timestamp : UInt32) (d : ParallelDownload ν) : ParallelDownload ν :=
  match d.headersThread with
  | .starting =>
    match d.nodes.getLast? with
    | none => { d with headersThread := .over noMoreNodes }
    | some node =>
      let batches := peers.headers node d.shared.headers
      { d with
        nodes := d.nodes.dropLast
        headersThread := .downloading node (nodeAnnouncements timestamp (taken batches))
          (nodeFinishes timestamp batches) }
  | .downloading node [] true => { d with nodes := d.nodes ++ [node], headersThread := .over (.ok ()) }
  | .downloading _ [] false => { d with headersThread := .starting }
  | .downloading node (effect :: steps) finishes =>
    if effect.sendsHeaders && d.closed then { d with headersThread := .over channelIsClosed }
    else { d with shared := effect.apply d.shared, headersThread := .downloading node steps finishes }
  | .over _ => d

/-- The thread keeps a sender of its own, so an empty channel is one to wait for. -/
def blocksStep [Crates] (config : Config) (peers : Peers ν) (d : ParallelDownload ν) : ParallelDownload ν :=
  match d.blocksThread with
  | .receiving =>
    match d.shared.rx with
    | [] => d
    | blocksToDownload :: rx =>
      let d := { d with shared := { d.shared with rx }, received := d.received ++ [blocksToDownload] }
      if blocksToDownload.isEmpty then
        { d with blocksThread := .over (Outcome.fail (.ThreadChannelError "The list has 0 elements!")) }
      else
        match config.chunksToDownload blocksToDownload with
        | .error e => { d with blocksThread := .over (.error e.widen) }
        | .ok chunks => { d with blocksThread := .starting chunks }
  | .starting [] => { d with blocksThread := .joining }
  | .starting (chunk :: chunks) =>
    match d.nodes.getLast? with
    | none => { d with blocksThread := .over noMoreNodes }
    | some node =>
      { d with
        nodes := d.nodes.dropLast
        workers := d.workers ++ [config.worker peers node chunk]
        blocksThread := .starting chunks }
  | .joining =>
    match d.workers with
    | [] => { d with blocksThread := .counting }
    | w :: workers =>
      if w.steps.isEmpty then
        match joined w.result with
        | .ok () => { d with workers }
        | .error e => { d with blocksThread := .over (.error e) }
      else d
  | .counting => { d with blocksThread := .comparing d.shared.headers.length }
  | .comparing amountOfHeaders =>
    -- `amount_of_headers - config.height_first_block_to_download`
    if amountOfHeaders < config.heightFirstBlockToDownload then
      { d with blocksThread := .over Outcome.panic }
    else if d.shared.blocks.len = amountOfHeaders - config.heightFirstBlockToDownload then
      { d with blocksThread := .over (.ok ()) }
    else { d with blocksThread := .receiving }
  | .over _ => d

def workerStep (config : Config) (i : Nat) (d : ParallelDownload ν) : ParallelDownload ν :=
  match d.workers[i]? with
  | none => d
  | some w =>
    match w.steps with
    | [] => d
    | .effect effect :: steps =>
      if effect.sendsHeaders && d.closed then
        let result := Outcome.fail (.ThreadChannelError "sending on a closed channel")
        { d with workers := d.workers.set i ⟨w.node, [], result⟩ }
      else { d with shared := effect.apply d.shared, workers := d.workers.set i { w with steps } }
    | .report :: steps =>
      -- `amount_of_headers - config.height_first_block_to_download`
      if d.shared.headers.length < config.heightFirstBlockToDownload then
        { d with workers := d.workers.set i ⟨w.node, [], Outcome.panic⟩ }
      else { d with workers := d.workers.set i { w with steps } }
    | .returnNode :: steps =>
      { d with nodes := d.nodes ++ [w.node], workers := d.workers.set i { w with steps } }

def step [Crates] (config : Config) (peers : Peers ν) (timestamp : UInt32) (d : ParallelDownload ν) :
    DownloadTurn → ParallelDownload ν
  | .headers => d.headersStep peers timestamp
  | .blocks => d.blocksStep config peers
  | .worker i => d.workerStep config i

end ParallelDownload

theorem announcements_apply (timestamp : UInt32) (found : Bool) (batches : List (List BlockHeader))
    (d : Download) : (announcements timestamp found batches).foldl Effect.apply d =
      { d with headers := d.headers ++ batches.flatten, rx := d.rx ++ handed timestamp found batches } := by
  have sends (lists : List (List BlockHeader)) (d : Download) :
      (lists.map Effect.sendHeaders).foldl Effect.apply d = { d with rx := d.rx ++ lists } := by
    induction lists generalizing d with
    | nil => simp
    | cons list rest ih => simp [ih, Effect.apply]
  induction batches generalizing found d with
  | nil => simp [announcements, handed]
  | cons batch rest ih =>
    rw [announcements, List.foldl_cons, List.foldl_append, sends, ih, handed_cons timestamp found batch rest]
    simp [Effect.apply]

/-- Unless the channel is closed, a node that sends these batches has the effects that are modelled
here, and it is the last one under the same condition. -/
theorem missing_headers_from_node_announces [Crates] [Chrono] {config : HeadersConfig} {timestamp : UInt32}
    (date : getFirstBlockTimestamp config = .ok timestamp) {s : HeadersDownload}
    (stored : s.blockchain.headers ≠ []) :
    let r := (downloadMissingHeadersFromNode config).run s
    let d := (nodeAnnouncements timestamp (taken s.node.served)).foldl Effect.apply
      ⟨s.blockchain.headers, s.tx.sent, [], ∅⟩
    ClosedOr s (handed timestamp false (taken s.node.served).tail) r (r.2.blockchain.headers = d.headers ∧
      r.2.tx.sent = d.rx ∧ (r.1 = .ok () ↔ nodeFinishes timestamp s.node.served = true)) := by
  intro r d
  have applied : d = ⟨s.blockchain.headers ++ (taken s.node.served).flatten,
      s.tx.sent ++ handed timestamp false (taken s.node.served).tail, [], ∅⟩ := by
    simp only [d]
    rcases taken s.node.served with _ | ⟨first, rest⟩
    · simp [nodeAnnouncements, handed]
    · rw [nodeAnnouncements, List.foldl_cons, announcements_apply]
      simp [Effect.apply]
  rw [applied]
  rcases missing_headers_from_node_run date stored with closed | done
  · exact .inl closed
  · refine .inr ⟨done.headers, done.sent, done.ok_iff.trans ?_⟩
    rw [HeadersStream.finishes]
    rcases s.node.served with _ | ⟨first, rest⟩ <;> rfl

/-- The next messages of the peer hold valid blocks with the hashes that are asked for, in order. -/
structure TcpStream.Serves [Crates] (node : TcpStream) (blockHeaders : List BlockHeader) : Prop where
  requests : blockHeaders.length ≤ node.requests
  incoming : ∃ payloads blocks rest, node.incoming = payloads ++ rest ∧
    List.Forall₂ BlockMessage.Decodes payloads blocks ∧ (∀ b ∈ blocks, b.Accepted) ∧
    blocks.map Block.hash = blockHeaders.map BlockHeader.hash

theorem chunks_ok {chunkSize : Nat} (positive : 0 < chunkSize) (xs : List α) :
    ∃ cs, chunks chunkSize xs = .ok cs ∧ cs.flatten = xs ∧ cs.length ≤ xs.length := by
  have divided : chunks chunkSize xs = .ok _ := if_neg (Nat.ne_of_gt positive)
  refine ⟨_, divided, chunks_flatten divided, ?_⟩
  rw [List.length_map, List.length_range]
  rcases Nat.eq_zero_or_pos xs.length with empty | nonempty
  · rw [Nat.div_eq_of_lt (by omega)]
    exact Nat.zero_le _
  · apply Nat.div_le_of_le_mul
    rw [Nat.mul_comm]
    exact Nat.add_sub_one_le_mul (Nat.ne_of_gt nonempty) (Nat.ne_of_gt positive)

section Serves

variable [Crates] {t : DownloadThread}

theorem receive_block_serves {payload : List UInt8} {rest : List (List UInt8)} {b : Block}
    (atFront : t.node.incoming = payload :: rest) (decoded : BlockMessage.Decodes payload b)
    (accepted : b.Accepted) (tx : Bool) (headers : List BlockHeader) :
    (receiveBlock tx headers).run t = (.ok b, { t with node := { t.node with incoming := rest } }) := by
  obtain ⟨text, validated⟩ := accepted
  have read : (Proc.zoom DownloadThread.node (fun node t => { t with node }) BlockMessage.readFrom).run t =
      (.ok b, { t with node := { t.node with incoming := rest } }) := by
    rw [Proc.run_zoom, BlockMessage.read_from_cons atFront, decoded]
    rfl
  rw [receiveBlock, Proc.run_bind_ok _ (Proc.run_attempt_ok read)]
  simp [Proc.run_bind, validated]

theorem receive_blocks_serves {payloads rest : List (List UInt8)} {blocks : List Block}
    (decodes : List.Forall₂ BlockMessage.Decodes payloads blocks) (accepted : ∀ b ∈ blocks, b.Accepted)
    (atFront : t.node.incoming = payloads ++ rest) (tx : Bool) (headers : List BlockHeader) :
    (receiveRequestedBlocksFromNode tx headers blocks.length).run t =
      (.ok blocks, { t with node := { t.node with incoming := rest } }) := by
  induction decodes generalizing t with
  | nil =>
    rw [List.nil_append] at atFront
    rw [← atFront]
    rfl
  | @cons payload b payloads blocks decoded _ ih =>
    rw [List.cons_append] at atFront
    have first := receive_block_serves atFront decoded (accepted b (by simp)) tx headers
    have others := @ih { t with node := { t.node with incoming := payloads ++ rest } }
      (fun b' member => accepted b' (by simp [member])) rfl
    rw [List.length_cons, receiveRequestedBlocksFromNode, Proc.run_bind_ok _ first,
      Proc.run_bind_ok _ others]
    rfl

theorem download_batches_serves {blockHeaders : List BlockHeader} {batches : List (List BlockHeader)}
    {currentBlocks : HashMap Hash Block} {payloads rest : List (List UInt8)} {blocks : List Block}
    (requests : batches.length ≤ t.node.requests) (atFront : t.node.incoming = payloads ++ rest)
    (decodes : List.Forall₂ BlockMessage.Decodes payloads blocks) (accepted : ∀ b ∈ blocks, b.Accepted)
    (asked : blocks.length = batches.flatten.length) :
    ∃ (sent : List (List Block)) (node : TcpStream), sent.flatten = blocks ∧
      (downloadBatches blockHeaders batches currentBlocks).run t =
        (.ok (some (insertBlocks blocks currentBlocks)), ⟨node, t.effects ++ sent.map .sendBlocks⟩) := by
  induction batches generalizing t payloads blocks currentBlocks with
  | nil =>
    obtain rfl : blocks = [] := List.eq_nil_of_length_eq_zero asked
    exact ⟨[], t.node, rfl, by simp [downloadBatches, insertBlocks]⟩
  | cons batch batches ih =>
    rw [List.flatten_cons, List.length_append] at asked
    rw [List.length_cons] at requests
    obtain ⟨left, here⟩ : ∃ left, t.node.requests = left + 1 := Nat.exists_eq_add_one.mpr (by omega)
    have size : batch.length ≤ blocks.length := by omega
    -- the messages of this batch and those of the others
    have own := List.forall₂_take batch.length decodes
    have later := List.forall₂_drop batch.length decodes
    rw [← List.take_append_drop batch.length payloads, List.append_assoc] at atFront
    have length : (blocks.take batch.length).length = batch.length := List.length_take_of_le size
    let t' : DownloadThread := { t with node :=
      { t.node with
        requests := left
        written := t.node.written ++ [GetDataMessage.new (batch.map fun block => Inventory.newBlock block.hash)] } }
    have requested : (requestBlocksFromNode true batch blockHeaders).run t = (.ok (), t') := by
      simp [requestBlocksFromNode, Proc.run_bind, here, t']
    have received := receive_blocks_serves own (fun b member => accepted b (List.mem_of_mem_take member))
      (t := t') atFront true blockHeaders
    rw [length] at received
    obtain ⟨sent, node, whole, ran⟩ := @ih
      { node := { t'.node with incoming := payloads.drop batch.length ++ rest }
        effects := t.effects ++ [.sendBlocks (blocks.take batch.length)] }
      (insertBlocks (blocks.take batch.length) currentBlocks) (payloads.drop batch.length)
      (blocks.drop batch.length) (by simp only [t']; omega) rfl later
      (fun b member => accepted b (List.mem_of_mem_drop member)) (by rw [List.length_drop]; omega)
    refine ⟨blocks.take batch.length :: sent, node, by rw [List.flatten_cons, whole, List.take_append_drop], ?_⟩
    rw [downloadBatches, Proc.run_bind_ok _ (Proc.run_attempt_ok requested)]
    simp only
    rw [Proc.run_bind_ok _ (Proc.run_attempt_ok received)]
    simp only
    rw [DownloadThread.perform, Proc.run_bind_ok _ (Proc.run_modify ..), ran, ← insert_blocks_append, List.take_append_drop,
      List.map_cons, List.append_assoc, List.singleton_append]

theorem Config.worker_serves {config : Config} {peers : Peers ν} {node : ν} {chunk : List BlockHeader}
    (positive : 0 < config.blocksDownloadPerNode) (serves : (peers.blocks node chunk).Serves chunk) :
    ∃ sent : List (List Block), sent.flatten.map Block.hash = chunk.map BlockHeader.hash ∧
      config.worker peers node chunk = ⟨node,
        (sent.map fun blocks => .effect (.sendBlocks blocks)) ++
          [.effect (.storeBlocks (insertBlocks sent.flatten ∅)), .report, .returnNode], .ok ()⟩ := by
  obtain ⟨payloads, blocks, rest, incoming, decodes, accepted, hashes⟩ := serves.incoming
  obtain ⟨batches, divided, whole, few⟩ := chunks_ok positive chunk
  have length := congrArg List.length hashes
  rw [List.length_map, List.length_map] at length
  obtain ⟨sent, left, same, ran⟩ : ∃ (sent : List (List Block)) (left : TcpStream), sent.flatten = blocks ∧
      (downloadBatches chunk batches ∅).run ⟨peers.blocks node chunk, []⟩ =
        (.ok (some (insertBlocks blocks ∅)), ⟨left, [] ++ sent.map .sendBlocks⟩) :=
    download_batches_serves (few.trans serves.requests) incoming decodes accepted (by rw [length, whole])
  refine ⟨sent, by rw [same, hashes], ?_⟩
  have run : config.threadRun (chunk, peers.blocks node chunk) = (.ok (),
      ⟨left, sent.map .sendBlocks ++ [.storeBlocks (insertBlocks sent.flatten ∅)]⟩) := by
    rw [threadRun, downloadBlocksSingleThread, divided]
    simp [Proc.run_bind, ran, DownloadThread.perform, same]
  simp [worker, run, Effect.stores, Function.comp_def]

end Serves

end BitcoinNode
