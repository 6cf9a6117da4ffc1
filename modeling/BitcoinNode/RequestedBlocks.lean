import BitcoinNode.DownloadRuns

/-! Which blocks a download stores. What a peer sends is checked for itself and never compared
with what was asked for, so the blocks stored and delivered are those of its next messages. -/
namespace BitcoinNode

section SingleNode

variable [Crates]

/-- The batches of `downloadBlocksSingleNode`; any error ends it. -/
def downloadBatchesSingleNode (blockHeaders : List BlockHeader) :
    List (List BlockHeader) → HashMap Hash Block → Downloading (HashMap Hash Block)
  | [], currentBlocks => return currentBlocks
  | blocksToDownload :: rest, currentBlocks => do
    requestBlocksFromNode false blocksToDownload blockHeaders
    let receivedBlocks ←
      receiveRequestedBlocksFromNode false blockHeaders blocksToDownload.length
    DownloadThread.perform (.sendBlocks receivedBlocks)
    downloadBatchesSingleNode blockHeaders rest (insertBlocks receivedBlocks currentBlocks)

def downloadBlocksSingleNode (config : Config) (blockHeaders : List BlockHeader) :
    Downloading Unit := do
  let batches ← Proc.lift (chunks config.blocksDownloadPerNode blockHeaders).widen
  let currentBlocks ← downloadBatchesSingleNode blockHeaders batches ∅
  DownloadThread.perform (.storeBlocks currentBlocks)

end SingleNode

theorem chunks_flatten {chunkSize : Nat} {xs : List α} {cs : List (List α)}
    (divided : chunks chunkSize xs = .ok cs) : cs.flatten = xs := by
  unfold chunks at divided
  split at divided
  · cases divided
  rename_i positive
  obtain rfl := Except.ok.inj divided
  have front (k : Nat) : ((List.range k).map fun i => (xs.drop (i * chunkSize)).take chunkSize).flatten =
      xs.take (k * chunkSize) := by
    induction k with
    | zero => simp
    | succ k ih => simp [List.range_succ, ih, Nat.succ_mul, List.take_add]
  rw [front]
  apply List.take_of_length_le
  have bound := Nat.lt_mul_div_succ (xs.length + chunkSize - 1) (Nat.pos_of_ne_zero positive)
  rw [Nat.mul_succ] at bound
  rw [Nat.mul_comm]
  omega

def BlockMessage.Decodes (payload : List UInt8) (b : Block) : Prop :=
  BlockMessage.unmarshalling payload = .ok b

def DownloadThread.Unstored (t : DownloadThread) : Prop := ∀ blocks, .storeBlocks blocks ∉ t.effects

/-- A thread that read the messages of `incoming` in order: it has sent the batches `sent` and
has received `received` for the next one. -/
structure DownloadThread.Progress (incoming : List (List UInt8)) (sent : List (List Block))
    (received : List Block) (t : DownloadThread) : Prop where
  effects : t.effects = sent.map .sendBlocks
  read : ∃ payloads, incoming = payloads ++ t.node.incoming ∧
    List.Forall₂ BlockMessage.Decodes payloads (sent.flatten ++ received)

theorem DownloadThread.Progress.unstored {incoming : List (List UInt8)} {sent : List (List Block)}
    {received : List Block} {t : DownloadThread} (progress : t.Progress incoming sent received) :
    t.Unstored := by
  intro blocks
  simp [progress.effects]

section Progress

variable {incoming : List (List UInt8)} {sent : List (List Block)} {received : List Block}

theorem give_up_unstored (tx : Bool) (headersRead : List BlockHeader) (e : NodeCustomErrors)
    (post : α → DownloadThread → Prop) :
    Proc.Triple DownloadThread.Unstored (do
        tryToDownloadBlocksFromOtherNode tx headersRead
        Proc.lift (Outcome.fail e)) post DownloadThread.Unstored := by
  refine .bind (fun _ t => t.Unstored) ?_ fun _ => .lift (fun _ _ failed => nomatch failed) fun _ => id
  cases tx with
  | false => exact .pure fun t unstored => unstored
  | true => exact .modify fun t unstored blocks => by simpa using unstored blocks

theorem read_from_progress : Proc.Triple (·.Progress incoming sent received)
    (Proc.zoom DownloadThread.node (fun node t => { t with node }) BlockMessage.readFrom)
    (fun b t => t.Progress incoming sent (received ++ [b])) DownloadThread.Unstored := by
  intro t progress
  rw [Proc.run_zoom]
  cases next : t.node.incoming with
  | nil =>
    rw [BlockMessage.read_from_nil next]
    exact progress.unstored
  | cons payload rest =>
    rw [BlockMessage.read_from_cons next]
    rcases decoded : BlockMessage.unmarshalling payload with (e | _ | _) | b
    · exact progress.unstored
    · exact progress.unstored
    · exact progress.unstored
    · obtain ⟨payloads, split, decodes⟩ := progress.read
      refine ⟨progress.effects, payloads ++ [payload], by simp [split, next], ?_⟩
      rw [← List.append_assoc]
      exact List.rel_append decodes (.cons decoded .nil)

theorem deliver_progress {fails : DownloadThread → Prop} {blocks : List Block} :
    Proc.Triple (·.Progress incoming sent blocks) (DownloadThread.perform (.sendBlocks blocks))
      (fun _ t => t.Progress incoming (sent ++ [blocks]) []) fails := by
  refine .modify fun t progress => ⟨by simp [progress.effects], ?_⟩
  simpa using progress.read

variable [Crates]

theorem request_blocks_progress (tx : Bool) (chunk headers : List BlockHeader) :
    Proc.Triple (·.Progress incoming sent received) (requestBlocksFromNode tx chunk headers)
      (fun _ t => t.Progress incoming sent received) DownloadThread.Unstored := by
  refine .bind (fun t t' => t = t' ∧ t'.Progress incoming sent received)
    (.get fun t progress => ⟨rfl, progress⟩) fun t => ?_
  cases t.node.requests with
  | zero => exact (give_up_unstored tx headers _ _).strengthen fun _ here => here.2.unstored
  | succ requests =>
    refine .modify fun t' here => ?_
    obtain ⟨rfl, progress⟩ := here
    exact ⟨progress.effects, progress.read⟩

theorem receive_block_progress (tx : Bool) (headers : List BlockHeader) :
    Proc.Triple (·.Progress incoming sent received) (receiveBlock tx headers)
      (fun b t => t.Progress incoming sent (received ++ [b])) DownloadThread.Unstored := by
  refine .bind _ (.attempt read_from_progress fun _ => id) fun block => ?_
  cases block with
  | error err => exact (give_up_unstored tx headers _ _).strengthen fun _ here => here.2 err rfl
  | ok block =>
    refine .bind (fun _ t => t.Progress incoming sent (received ++ [block]))
      (.lift (fun _ _ _ here => here.1 block rfl) fun _ here => (here.1 block rfl).unstored)
      fun result => ?_
    split_ifs
    · exact .pure fun _ progress => progress
    · exact (give_up_unstored tx headers _ _).strengthen fun _ progress => progress.unstored

theorem receive_blocks_progress (tx : Bool) (headers : List BlockHeader) (amount : Nat) :
    Proc.Triple (·.Progress incoming sent received)
      (receiveRequestedBlocksFromNode tx headers amount)
      (fun blocks t => blocks.length = amount ∧ t.Progress incoming sent (received ++ blocks))
      DownloadThread.Unstored := by
  induction amount generalizing received with
  | zero => exact .pure fun _ progress => ⟨rfl, by simpa using progress⟩
  | succ amount ih =>
    refine .bind _ (receive_block_progress tx headers) fun block => .bind _ ih fun blocks => ?_
    exact .pure fun _ rest => ⟨by simp [rest.1], by simpa using rest.2⟩

theorem insert_blocks_append (blocks blocks' : List Block) (currentBlocks : HashMap Hash Block) :
    insertBlocks (blocks ++ blocks') currentBlocks =
      insertBlocks blocks' (insertBlocks blocks currentBlocks) := List.foldl_append

/-- All batches were received, sent and collected. -/
def DownloadThread.Received (incoming : List (List UInt8)) (sent : List (List Block))
    (batches : List (List BlockHeader)) (currentBlocks downloaded : HashMap Hash Block)
    (t : DownloadThread) : Prop :=
  ∃ new : List (List Block), t.Progress incoming (sent ++ new) [] ∧
    new.flatten.length = batches.flatten.length ∧
    downloaded = insertBlocks new.flatten currentBlocks

theorem DownloadThread.Received.cons {batch : List BlockHeader} {batches : List (List BlockHeader)}
    {currentBlocks downloaded : HashMap Hash Block} {blocks : List Block} {t : DownloadThread}
    (length : blocks.length = batch.length)
    (rest : t.Received incoming (sent ++ [blocks]) batches (insertBlocks blocks currentBlocks) downloaded) :
    t.Received incoming sent (batch :: batches) currentBlocks downloaded := by
  obtain ⟨new, progress, lengths, same⟩ := rest
  refine ⟨blocks :: new, by simpa using progress, by simp [length, lengths], ?_⟩
  rw [same, List.flatten_cons, insert_blocks_append]

theorem download_batches_progress (blockHeaders : List BlockHeader)
    (batches : List (List BlockHeader)) (currentBlocks : HashMap Hash Block) :
    Proc.Triple (·.Progress incoming sent [])
      (downloadBatches blockHeaders batches currentBlocks)
      (fun downloaded t => t.Unstored ∧
        ∀ blocks ∈ downloaded, t.Received incoming sent batches currentBlocks blocks)
      (fun _ => True) := by
  induction batches generalizing sent currentBlocks with
  | nil =>
    refine .pure fun t progress => ⟨progress.unstored, fun blocks same => ?_⟩
    obtain rfl := Option.some.inj same
    exact ⟨[], by simpa using progress, rfl, rfl⟩
  | cons batch rest ih =>
    refine .bind _ (.attempt (request_blocks_progress true batch blockHeaders) fun _ _ => trivial)
      fun requested => ?_
    split
    · exact .pure fun _ here => ⟨here.2 _ rfl, fun _ same => nomatch same⟩
    · exact .lift (fun _ _ failed => nomatch failed) fun _ _ => trivial
    · refine Proc.Triple.strengthen ?_ fun _ here => here.1 _ rfl
      refine .bind _ (.attempt (receive_blocks_progress true blockHeaders batch.length)
        fun _ _ => trivial) fun received => ?_
      split
      · exact .pure fun _ here => ⟨here.2 _ rfl, fun _ same => nomatch same⟩
      · exact .lift (fun _ _ failed => nomatch failed) fun _ _ => trivial
      · rename_i blocks
        intro t here
        obtain ⟨length, progress⟩ := here.1 _ rfl
        refine Proc.Triple.bind _ deliver_progress (fun _ => ?_) t (by simpa using progress)
        exact (ih _).weaken fun downloaded t done =>
          ⟨done.1, fun blocks' same => (done.2 blocks' same).cons length⟩

theorem download_batches_single_node_progress (blockHeaders : List BlockHeader)
    (batches : List (List BlockHeader)) (currentBlocks : HashMap Hash Block) :
    Proc.Triple (·.Progress incoming sent [])
      (downloadBatchesSingleNode blockHeaders batches currentBlocks)
      (fun downloaded t => t.Received incoming sent batches currentBlocks downloaded)
      DownloadThread.Unstored := by
  induction batches generalizing sent currentBlocks with
  | nil => exact .pure fun t progress => ⟨[], by simpa using progress, rfl, rfl⟩
  | cons batch rest ih =>
    refine .bind _ (request_blocks_progress false batch blockHeaders) fun _ =>
      .bind _ (receive_blocks_progress false blockHeaders batch.length) fun blocks => ?_
    intro t ⟨length, progress⟩
    refine Proc.Triple.bind _ deliver_progress (fun _ => ?_) t (by simpa using progress)
    exact (ih _).weaken fun downloaded t done => done.cons length

def DownloadThread.Stores (t : DownloadThread) (hash : Hash) : Prop :=
  ∃ blocks, .storeBlocks blocks ∈ t.effects ∧ hash ∈ blocks.keys

/-- The blocks stored and the blocks sent to the utxo thread are those that were requested. -/
def DownloadThread.OnlyRequested (t : DownloadThread) (blockHeaders : List BlockHeader) : Prop :=
  ∀ hash, (t.Stores hash ↔ hash ∈ blockHeaders.map BlockHeader.hash) ∧
    ((∃ b, Delivers t.effects b ∧ b.hash = hash) ↔ hash ∈ blockHeaders.map BlockHeader.hash)

/-- The next messages of the peer, one for each header, hold blocks with the hashes of the headers. -/
def TcpStream.Answers (node : TcpStream) (blockHeaders : List BlockHeader) : Prop :=
  ∀ hash, (∃ payload ∈ node.incoming.take blockHeaders.length, ∃ b,
    BlockMessage.Decodes payload b ∧ b.hash = hash) ↔ hash ∈ blockHeaders.map BlockHeader.hash

theorem exists_decoded_iff {payloads : List (List UInt8)} {blocks : List Block}
    (decodes : List.Forall₂ BlockMessage.Decodes payloads blocks) (hash : Hash) :
    (∃ payload ∈ payloads, ∃ b, BlockMessage.Decodes payload b ∧ b.hash = hash) ↔
      ∃ b ∈ blocks, b.hash = hash := by
  induction decodes with
  | nil => simp
  | @cons payload b payloads blocks decoded _ ih =>
    have only : (∃ b', BlockMessage.Decodes payload b' ∧ b'.hash = hash) ↔ b.hash = hash := by
      constructor
      · rintro ⟨b', decoded', same⟩
        rwa [Except.ok.inj (decoded.symm.trans decoded')]
      · exact fun same => ⟨b, decoded, same⟩
    simp only [List.mem_cons, exists_eq_or_imp, only, ih]

theorem DownloadThread.Received.only_requested {config : Config} {node : TcpStream}
    {blockHeaders : List BlockHeader} {batches : List (List BlockHeader)}
    {downloaded : HashMap Hash Block} {t : DownloadThread}
    (divided : chunks config.blocksDownloadPerNode blockHeaders = .ok batches)
    (received : t.Received node.incoming [] batches ∅ downloaded) :
    OnlyRequested { t with effects := t.effects ++ [.storeBlocks downloaded] } blockHeaders ↔
      node.Answers blockHeaders := by
  obtain ⟨sent, ⟨effects, payloads, split, decodes⟩, lengths, rfl⟩ := received
  rw [List.nil_append] at effects decodes
  rw [List.append_nil] at decodes
  have amount : payloads.length = blockHeaders.length := by
    rw [decodes.length_eq, lengths, chunks_flatten divided]
  have next : node.incoming.take blockHeaders.length = payloads := by
    rw [split, ← amount, List.take_left]
  have stored (hash : Hash) : DownloadThread.Stores
      { t with effects := t.effects ++ [.storeBlocks (insertBlocks sent.flatten ∅)] } hash ↔
        ∃ b ∈ sent.flatten, b.hash = hash := by
    simp [DownloadThread.Stores, effects, mem_insert_blocks]
  have delivered (hash : Hash) : (∃ b,
      Delivers (t.effects ++ [.storeBlocks (insertBlocks sent.flatten ∅)]) b ∧ b.hash = hash) ↔
        ∃ b ∈ sent.flatten, b.hash = hash := by
    simp [Delivers, effects]
  rw [OnlyRequested, TcpStream.Answers, next]
  refine forall_congr' fun hash => ?_
  rw [stored, delivered, exists_decoded_iff decodes, and_self]

/-- When a download returns and has stored its blocks, it has stored and delivered the requested
blocks and no others exactly if these are what the peer's next messages hold. -/
theorem only_requested_blocks {config : Config} {blockHeaders : List BlockHeader} {node : TcpStream} :
    (∀ t, (downloadBlocksSingleThread config blockHeaders).run ⟨node, []⟩ = (.ok (), t) →
      (∃ blocks, .storeBlocks blocks ∈ t.effects) →
      (t.OnlyRequested blockHeaders ↔ node.Answers blockHeaders)) ∧
    ∀ t, (downloadBlocksSingleNode config blockHeaders).run ⟨node, []⟩ = (.ok (), t) →
      (t.OnlyRequested blockHeaders ↔ node.Answers blockHeaders) := by
  have start : DownloadThread.Progress node.incoming [] [] ⟨node, []⟩ := ⟨rfl, [], rfl, .nil⟩
  constructor
  · intro t ran stores
    have body : Proc.Triple (·.Progress node.incoming [] [])
        (downloadBlocksSingleThread config blockHeaders)
        (fun _ t => (∃ blocks, .storeBlocks blocks ∈ t.effects) →
          (t.OnlyRequested blockHeaders ↔ node.Answers blockHeaders)) (fun _ => True) := by
      refine .bind (fun batches t => chunks config.blocksDownloadPerNode blockHeaders = .ok batches ∧
          t.Progress node.incoming [] [])
        (.lift (fun _ _ divided progress => ⟨Outcome.widen_eq_ok.mp divided, progress⟩) fun _ _ => trivial)
        fun batches => ?_
      intro t ⟨divided, progress⟩
      refine Proc.Triple.bind _ (download_batches_progress blockHeaders batches ∅) (fun downloaded => ?_) t
        progress
      cases downloaded with
      | none => exact .pure fun t here ⟨blocks, stored⟩ => absurd stored (here.1 blocks)
      | some blocks => exact .modify fun t here _ => (here.2 blocks rfl).only_requested divided
    have done := body.returns start (by rw [ran])
    rw [ran] at done
    exact done stores
  · intro t ran
    have body : Proc.Triple (·.Progress node.incoming [] [])
        (downloadBlocksSingleNode config blockHeaders)
        (fun _ t => t.OnlyRequested blockHeaders ↔ node.Answers blockHeaders) DownloadThread.Unstored := by
      refine .bind (fun batches t => chunks config.blocksDownloadPerNode blockHeaders = .ok batches ∧
          t.Progress node.incoming [] [])
        (.lift (fun _ _ divided progress => ⟨Outcome.widen_eq_ok.mp divided, progress⟩) fun _ progress => progress.unstored)
        fun batches => ?_
      intro t ⟨divided, progress⟩
      refine Proc.Triple.bind _ (download_batches_single_node_progress blockHeaders batches ∅)
        (fun blocks => ?_) t progress
      exact .modify fun t received => received.only_requested divided
    have done := body.returns start (by rw [ran])
    rwa [ran] at done

theorem single_node_run_serving {b : Block} (valid : b.WellFormed) (accepted : b.Accepted)
    (header : BlockHeader) :
    let run := (downloadBlocksSingleNode ⟨1, 1, 1⟩ [header]).run ⟨.serving b, []⟩
    run.1 = .ok () ∧ run.2.effects = served b := by
  obtain ⟨text, validated⟩ := accepted
  simp [downloadBlocksSingleNode, chunks, downloadBatchesSingleNode, Proc.run_bind,
    Proc.attempt, requestBlocksFromNode, TcpStream.serving, receiveRequestedBlocksFromNode,
    receiveBlock, read_from_serving valid, validated, Outcome.attempt, DownloadThread.perform,
    insertBlocks, served]

theorem serving_answers_iff {b : Block} (valid : b.WellFormed) (header : BlockHeader) :
    (TcpStream.serving b).Answers [header] ↔ b.hash = header.hash := by
  have only (hash : Hash) : (∃ payload ∈ (TcpStream.serving b).incoming.take [header].length, ∃ b',
      BlockMessage.Decodes payload b' ∧ b'.hash = hash) ↔ b.hash = hash := by
    have decoded : BlockMessage.Decodes b.marshalling b := BlockMessage.unmarshalling_marshalling valid
    simpa [TcpStream.serving] using exists_decoded_iff (.cons decoded .nil) hash
  simp only [TcpStream.Answers, only, List.map_singleton, List.mem_singleton]
  constructor
  · intro answers
    exact (answers b.hash).mp rfl
  · rintro same hash
    rw [same, eq_comm]

theorem served_stores {b : Block} {t : DownloadThread} (effects : t.effects = served b) :
    t.Stores b.hash := by
  refine ⟨(∅ : HashMap Hash Block).insert b.hash b, ?_, HashMap.mem_keys_insert.mpr (.inl rfl)⟩
  rw [effects]
  exact List.mem_cons_of_mem _ List.mem_cons_self

theorem served_requested_iff {b : Block} {t : DownloadThread} (effects : t.effects = served b)
    (header : BlockHeader) : t.OnlyRequested [header] ↔ b.hash = header.hash := by
  have stored (hash : Hash) : t.Stores hash ↔ hash = b.hash := by
    simp [DownloadThread.Stores, effects, served, HashMap.mem_keys_insert]
  have delivered (hash : Hash) : (∃ b, Delivers t.effects b ∧ b.hash = hash) ↔ hash = b.hash := by
    simp [Delivers, effects, served, eq_comm]
  simp only [DownloadThread.OnlyRequested, stored, delivered, List.map_singleton, List.mem_singleton,
    and_self]
  constructor
  · intro same
    exact (same b.hash).mp rfl
  · rintro same hash
    rw [same]

end Progress

/-- A valid block is stored in the place of the one that was requested. -/
theorem only_requested_blocks_foreign :
    let _ := Crates.standard
    let requested := (Block.minted 1).blockHeader
    let thread := (downloadBlocksSingleThread ⟨1, 1, 1⟩ [requested]).run ⟨.serving (Block.minted 2), []⟩
    let single := (downloadBlocksSingleNode ⟨1, 1, 1⟩ [requested]).run ⟨.serving (Block.minted 2), []⟩
    thread.1 = .ok () ∧ thread.2.Stores (Block.minted 2).hash ∧ ¬thread.2.OnlyRequested [requested] ∧
      single.1 = .ok () ∧ single.2.Stores (Block.minted 2).hash ∧
      ¬single.2.OnlyRequested [requested] := by
  intro _ requested thread single
  have valid : (Block.minted 2).WellFormed := Block.minted_wellFormed 2
  have accepted : (Block.minted 2).Accepted := Block.minted_accepted (by decide +kernel)
  have other : (Block.minted 2).hash ≠ requested.hash := by decide +kernel
  obtain ⟨returned, effects⟩ := thread_run_serving valid accepted 1 1 requested
  obtain ⟨returned', effects'⟩ := single_node_run_serving valid accepted requested
  exact ⟨returned, served_stores effects, fun only => other ((served_requested_iff effects _).mp only),
    returned', served_stores effects', fun only => other ((served_requested_iff effects' _).mp only)⟩

/-- The peer sends what it was asked for. -/
theorem only_requested_blocks_minted :
    let _ := Crates.standard
    let requested := (Block.minted 1).blockHeader
    let thread := (downloadBlocksSingleThread ⟨1, 1, 1⟩ [requested]).run ⟨.serving (Block.minted 1), []⟩
    let single := (downloadBlocksSingleNode ⟨1, 1, 1⟩ [requested]).run ⟨.serving (Block.minted 1), []⟩
    thread.2.OnlyRequested [requested] ∧ single.2.OnlyRequested [requested] := by
  intro _ requested thread single
  have valid : (Block.minted 1).WellFormed := Block.minted_wellFormed 1
  have accepted : (Block.minted 1).Accepted := Block.minted_accepted (by decide +kernel)
  obtain ⟨returned, effects⟩ := thread_run_serving valid accepted 1 1 requested
  obtain ⟨returned', _⟩ := single_node_run_serving valid accepted requested
  have answers := (serving_answers_iff valid requested).mpr rfl
  obtain ⟨first, second⟩ := @only_requested_blocks _ ⟨1, 1, 1⟩ [requested] (.serving (Block.minted 1))
  obtain ⟨blocks, stored, _⟩ := served_stores effects
  exact ⟨(first _ (Prod.ext returned rfl) ⟨blocks, stored⟩).mpr answers,
    (second _ (Prod.ext returned' rfl)).mpr answers⟩

end BitcoinNode
