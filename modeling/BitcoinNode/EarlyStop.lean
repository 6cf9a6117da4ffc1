import BitcoinNode.NodePool

/-! The comparison of the counts on which the thread of the blocks returns. The other thread is still
growing one of them, and between two batches all that is stored may be all that was taken. -/
namespace BitcoinNode

namespace Synced

variable [Crates]

/-- The headers of two blocks that come after headers that are dated too early. -/
def preceded (n : Nat) : List BlockHeader := List.replicate n early ++ two

theorem dated_late (tag : UInt8) : ¬(Block.dated tag).blockHeader.time < 1681095600 := by
  change ¬(1681095600 : UInt32) < 1681095600
  decide

theorem findIdx_preceded (n : Nat) : (chain (preceded n)).findIdx (1681095600 ≤ ·.time) = 2001 + n := by
  have before : ∀ header ∈ genesisBlockHeader :: (full ++ List.replicate n early),
      ¬(1681095600 : UInt32) ≤ header.time := by
    have genesis : ¬(1681095600 : UInt32) ≤ genesisBlockHeader.time := by decide
    have first : ¬(1681095600 : UInt32) ≤ early.time := by
      change ¬(1681095600 : UInt32) ≤ 0
      decide
    intro header member
    rcases List.mem_cons.mp member with rfl | member
    · exact genesis
    · rcases List.mem_append.mp member with here | here <;> rwa [List.eq_of_mem_replicate here]
  have none : ∀ header ∈ genesisBlockHeader :: (full ++ List.replicate n early),
      decide ((1681095600 : UInt32) ≤ header.time) = false :=
    fun header member => decide_eq_false (before header member)
  have shape : chain (preceded n) = genesisBlockHeader :: (full ++ List.replicate n early) ++ two := by
    rw [chain, preceded, List.cons_append, List.append_assoc]
  rw [shape, List.findIdx_append, List.findIdx_eq_length_of_false none, if_neg (Nat.lt_irrefl _),
    List.length_cons, List.length_append, full_length,
    List.length_replicate, two, List.findIdx_cons, decide_eq_true (UInt32.not_lt.mp (dated_late 1))]
  exact (by omega : 0 + (2000 + n + 1) = 2001 + n)

theorem preceded_healthy (works : ∀ tag ∈ [1, 2], (Block.dated tag).blockHeader.validate = .ok true) (n : Nat) :
    (peers (preceded n)).Healthy 1681095600 (chain (preceded n)) :=
  healthy (show preceded n = List.replicate n early ++ two from rfl) works (by simp [two])

theorem stops_early (works : ∀ tag ∈ [1, 2], (Block.dated tag).blockHeader.validate = .ok true) {n : Nat}
    (size : n + 1 = 2000) :
    ∃ turns last,
      let d := execute (ParallelDownload.step ⟨1, 1, 2001 + n⟩ (peers (preceded n)) 1681095600)
        (.start [false, true] [genesisBlockHeader]) turns
      d.blocksThread = .over (.ok ()) ∧ d.headersThread = .downloading true
        [.storeHeaders [(Block.dated 2).blockHeader], .sendHeaders [(Block.dated 2).blockHeader]] last := by
  let first : List BlockHeader := [(Block.dated 1).blockHeader]
  let second : List BlockHeader := [(Block.dated 2).blockHeader]
  let config : Config := ⟨1, 1, 2001 + n⟩
  let stored : List BlockHeader := chain (List.replicate n early ++ first)
  have batch : (List.replicate n early ++ first).length = 2000 := by
    rw [List.length_append, List.length_replicate]
    exact size
  have batches : taken ((peers (preceded n)).headers true [genesisBlockHeader]) =
      Synced.full :: (List.replicate n early ++ first) :: [second] := by
    have shape : preceded n = List.replicate n early ++ first ++ second := by
      rw [List.append_assoc]
      rfl
    have length : (preceded n).length = 2001 := by
      rw [shape, List.length_append, batch]
      rfl
    rw [peers, headers_first, length, shape, replies_full batch, replies_short (by simp [second]), taken,
      if_pos full_length, taken, if_pos batch]
    rfl
  let last := finishes 1681095600 false [List.replicate n early ++ first, second]
  have announced : execute (ParallelDownload.step config (peers (preceded n)) 1681095600)
      (.start [false, true] [genesisBlockHeader]) (List.replicate 4 .headers) =
      ⟨[false], ⟨stored, [first], [], ∅⟩, [], .downloading true (announcements 1681095600 true [second]) last,
        .receiving, []⟩ :=
    @announce_first _ _ config [false] true _ [] (preceded n) _ n (dated_late 1) (by simp [late, Block.dated]) batches
  let taken (thread : BlocksThread) : ParallelDownload Bool := ⟨[false], ⟨stored, [], [], ∅⟩, [first],
    .downloading true [.storeHeaders second, .sendHeaders second] last, thread, []⟩
  have divided : config.chunksToDownload first = .ok [first] := by
    simp [Config.chunksToDownload, divideBlocksToDownloadInEqualChunks, equalChunkSize, chunks, config, first]
  have nonempty : first.isEmpty = false := rfl
  have take : ParallelDownload.step config (peers (preceded n)) 1681095600
      ⟨[false], ⟨stored, [first], [], ∅⟩, [], .downloading true (announcements 1681095600 true [second]) last,
        .receiving, []⟩ .blocks = taken (.starting [first]) := by
    simp [ParallelDownload.step, ParallelDownload.blocksStep, nonempty, divided, taken, announcements, handed]
  have length : stored.length = 2002 + n := by
    simp only [stored, chain, List.length_cons, List.length_append, full_length, batch]
    omega
  have wanted : first ⊆ (chain (preceded n)).dropWhile (·.time < 1681095600) := by
    rw [preceded, dropWhile_chain]
    simp [two, Block.dated, first]
  have enough : 2001 + n ≤ stored.length := by omega
  have pool : (taken (.starting [first])).nodes = [] ++ [false] := rfl
  have begun : (taken (.starting [first])).blocksThread = .starting [first] := rfl
  obtain ⟨turns, blocks, rxUtxoSet, hashes, ran, _⟩ := ParallelDownload.run_chunk begun pool rfl
    (show 0 < config.blocksDownloadPerNode from Nat.one_pos)
    ((preceded_healthy works n).blocks false first wanted) enough (Q := fun _ _ => True)
    (fun _ _ _ _ _ _ => trivial) (fun _ _ _ _ _ => trivial)
  have one : ((∅ : HashMap Hash Block).extend (insertBlocks blocks ∅)).len = stored.length - (2001 + n) := by
    rw [ParallelDownload.len_served hashes (by simp [first]), length]
    exact (by omega : 1 = 2002 + n - (2001 + n))
  have stopped : ∃ shared, execute (ParallelDownload.step config (peers (preceded n)) 1681095600)
      (.start [false, true] [genesisBlockHeader]) (List.replicate 4 .headers ++ .blocks :: (turns ++ [.blocks])) =
        { taken (.over (.ok ())) with shared } := by
    rw [execute_append, announced, execute_cons, take, execute_append, ran, execute_cons,
      ParallelDownload.complete_step rfl enough one]
    exact ⟨_, rfl⟩
  obtain ⟨shared, stopped⟩ := stopped
  exact ⟨_, last, congrArg ParallelDownload.blocksThread stopped, congrArg ParallelDownload.headersThread stopped⟩

end Synced

namespace ParallelDownload

section Lagging

variable [Crates] {config : Config} {peers : Peers ν} {timestamp : UInt32} {chain : List BlockHeader}
  {nodes : List ν} {d d' : ParallelDownload ν}

/-- The headers are not counted while all those from the height of the first block on are taken and
the thread of the headers has more to do. -/
structure Lags (config : Config) (d : ParallelDownload ν) (turn : DownloadTurn) : Prop
    extends d.Fits config turn where
  count : turn = .blocks → d.blocksThread = .counting → d.headersThread.Through ∨
    ∃ header ∈ d.shared.headers.drop config.heightFirstBlockToDownload, header ∉ d.received.flatten

/-- What was counted is more than the blocks that are stored, as long as more headers may come. -/
def Counted (config : Config) (d : ParallelDownload ν) : Prop :=
  ∀ amountOfHeaders, d.blocksThread = .comparing amountOfHeaders →
    config.heightFirstBlockToDownload ≤ amountOfHeaders ∧ (d.headersThread.Through ∨
      d.shared.blocks.len < amountOfHeaders - config.heightFirstBlockToDownload)

structure Lagging (config : Config) (timestamp : UInt32) (chain : List BlockHeader) (nodes : List ν)
    (d : ParallelDownload ν) : Prop extends d.Sound timestamp chain nodes where
  counted : d.Counted config

theorem Sound.received (sound : d.Sound timestamp chain nodes) :
    ∃ before after, d.shared.headers = before ++ d.received.flatten ++ after ∧
      (d.received ≠ [] → chain.findIdx (timestamp ≤ ·.time) ≤ before.length) := by
  obtain ⟨more, lists, whole, before, shape, bound⟩ := sound.follows.chain
  refine ⟨before, (d.shared.rx ++ lists).flatten, ?_, fun some => bound (by simp [ParallelDownload.sent, some])⟩
  rw [shape, ParallelDownload.sent, List.append_assoc d.received, List.flatten_append, List.append_assoc]

theorem Sound.len_le (sound : d.Sound timestamp chain nodes) : d.shared.blocks.len ≤ d.received.flatten.length := by
  have inside : d.shared.blocks.keys ⊆ d.asked.toFinset := fun hash stored =>
    List.mem_toFinset.mpr (sound.stored hash stored)
  have few := (Finset.card_le_card inside).trans (List.toFinset_card_le d.asked)
  rwa [ParallelDownload.asked, List.length_map] at few

theorem Sound.enough (sound : d.Sound timestamp chain nodes)
    (height : config.heightFirstBlockToDownload = chain.findIdx (timestamp ≤ ·.time)) (some : d.received ≠ []) :
    config.heightFirstBlockToDownload + d.received.flatten.length ≤ d.shared.headers.length := by
  obtain ⟨before, after, shape, bound⟩ := sound.received
  rw [height, shape, List.length_append, List.length_append]
  have := bound some
  omega

theorem Sound.taken_of_workers (sound : d.Sound timestamp chain nodes) (working : d.workers ≠ []) : d.received ≠ [] := by
  have phase := sound.phase
  generalize d.blocksThread = thread at phase
  cases thread with
  | receiving => exact absurd phase working
  | starting | counting | comparing | «over» => exact phase.1
  | joining => exact phase

theorem Sound.ahead (sound : d.Sound timestamp chain nodes)
    (height : config.heightFirstBlockToDownload = chain.findIdx (timestamp ≤ ·.time)) (some : d.received ≠ [])
    {header : BlockHeader} (stored : header ∈ d.shared.headers.drop config.heightFirstBlockToDownload)
    (left : header ∉ d.received.flatten) :
    d.shared.blocks.len < d.shared.headers.length - config.heightFirstBlockToDownload := by
  obtain ⟨before, after, shape, bound⟩ := sound.received
  have few := sound.len_le
  have first := bound some
  rw [← height] at first
  have more : before.length + after.length ≠ config.heightFirstBlockToDownload := by
    intro all
    obtain rfl : after = [] := List.eq_nil_of_length_eq_zero (by omega)
    rw [shape, List.append_nil, List.drop_left' (by simpa using all)] at stored
    exact left stored
  rw [shape, List.length_append, List.length_append]
  omega

theorem Lagging.suits (lagging : d.Lagging config timestamp chain nodes)
    (height : config.heightFirstBlockToDownload = chain.findIdx (timestamp ≤ ·.time)) {turn : DownloadTurn}
    (lags : d.Lags config turn) : d.Suits config turn := by
  refine ⟨lags.toFits, fun i w steps _ atI _ => ?_, fun amount turn comparing => ?_⟩
  · have enough := lagging.enough height (lagging.taken_of_workers (List.ne_nil_of_mem (List.mem_of_getElem? atI)))
    omega
  · obtain ⟨enough, counted⟩ := lagging.counted amount comparing
    exact ⟨enough, fun equal => counted.resolve_right fun fewer => Nat.ne_of_lt fewer equal⟩

theorem Lagging.headers_turn (lagging : d.Lagging config timestamp chain nodes)
    (turn : HeadersTurn peers timestamp d d') :
    d'.Counted config := by
  intro amount comparing
  obtain ⟨_, _, thread, blocks, _⟩ := turn.frame lagging.toSound
  rw [thread] at comparing
  obtain ⟨enough, counted⟩ := lagging.counted _ comparing
  exact ⟨enough, counted.imp turn.through fun fewer => by rwa [blocks]⟩

theorem Lagging.blocks_turn (lagging : d.Lagging config timestamp chain nodes)
    (height : config.heightFirstBlockToDownload = chain.findIdx (timestamp ≤ ·.time))
    (lags : d.Lags config .blocks) (turn : BlocksTurn config peers d d') : d'.Counted config := by
  intro amount comparing
  cases turn with
  | waitList | waitWorker | finished => exact lagging.counted _ comparing
  | join joining =>
    have joining : BlocksThread.joining = .comparing amount := joining.symm.trans comparing
    cases joining
  | count counting =>
    obtain rfl := BlocksThread.comparing.inj comparing
    have phase := lagging.phase
    rw [counting] at phase
    have enough := lagging.enough height phase.1
    refine ⟨by omega, (lags.count rfl counting).imp_right ?_⟩
    rintro ⟨header, stored, left⟩
    exact lagging.ahead height phase.1 stored left
  | noElements | undivided | divide | allStarted | noNode | start | allJoined | joinFailed | underflow | complete
  | again => cases comparing

theorem Lagging.worker_turn (lagging : d.Lagging config timestamp chain nodes) {i : Nat}
    (turn : WorkerTurn config d i d') : d'.Counted config := by
  intro amount comparing
  have phase := lagging.phase
  cases turn with
  | idle => exact lagging.counted _ comparing
  | refused here | effect here | underflow _ here | report here | returnNode here =>
    -- all threads were joined before the headers were counted
    have comparing : d.blocksThread = .comparing amount := comparing
    rw [comparing] at phase
    exact absurd phase.2 (by simp [here])

theorem Lagging.step (healthy : peers.Healthy timestamp chain) (lagging : d.Lagging config timestamp chain nodes)
    (height : config.heightFirstBlockToDownload = chain.findIdx (timestamp ≤ ·.time)) {turn : DownloadTurn}
    (lags : d.Lags config turn) : (d.step config peers timestamp turn).Lagging config timestamp chain nodes := by
  refine ⟨lagging.toSound.step healthy (lagging.suits height lags), ?_⟩
  cases turn with
  | headers => exact lagging.headers_turn (headers_step_turn peers timestamp d)
  | blocks => exact lagging.blocks_turn height lags (blocks_step_turn config peers d)
  | worker i => exact lagging.worker_turn (worker_step_turn config d i)

/-- The thread of the blocks returns only when the thread of the headers has nothing left to do, which
therefore never finds the channel closed. -/
theorem no_early_stop (healthy : peers.Healthy timestamp chain) {headers more : List BlockHeader}
    (whole : headers ++ more = chain)
    (height : config.heightFirstBlockToDownload = chain.findIdx (timestamp ≤ ·.time))
    {turns : List DownloadTurn}
    (lags : EachCall (step config peers timestamp) (Lags config) (start nodes headers) turns) :
    Throughout (step config peers timestamp)
      (fun d => (d.blocksThread = .over (.ok ()) → d.headersThread.Through) ∧
        d.headersThread ≠ .over channelIsClosed)
      (start nodes headers) turns := by
  have begins : (start nodes headers).Lagging config timestamp chain nodes :=
    ⟨start_sound whole, fun amount comparing => by cases comparing⟩
  have always : Throughout (step config peers timestamp) (Lagging config timestamp chain nodes)
      (start nodes headers) turns :=
    .of_each (fun _ _ lagging lags => lagging.step healthy height lags) begins lags
  refine always.imp fun d lagging => ⟨fun ended => ?_, fun closed => ?_⟩
  · have phase := lagging.phase
    rw [ended] at phase
    exact phase.2.2.1
  · have follows := lagging.follows
    rw [closed] at follows
    exact follows.2.2 rfl

end Lagging

theorem no_early_stop_two :
    let _ := Crates.standard
    let step := step Synced.config (Synced.peers Synced.two) 1681095600
    ∃ turns, let d := execute step (start [false, true] [genesisBlockHeader]) turns
      d.blocksThread = .over (.ok ()) ∧ d.headersThread.Through := by
  intro _ step
  have works : ∀ tag ∈ [1, 2], (Block.dated tag).blockHeader.validate = .ok true := by decide +kernel
  have different : (Block.dated 1).hash ≠ (Block.dated 2).hash := by decide +kernel
  obtain ⟨turns, each, _, ended⟩ := Synced.complete_run works different
  have lags : EachCall step (Lags Synced.config) (start [false, true] [genesisBlockHeader]) turns :=
    fun before call after split =>
      have meets := each before call after split
      ⟨meets.1.toFits, fun turn _ => .inl (meets.2 turn)⟩
  have always := no_early_stop (Synced.two_healthy works)
    (show [genesisBlockHeader] ++ (Synced.full ++ Synced.two) = _ from rfl) (Synced.findIdx_preceded 0).symm lags
  exact ⟨turns, ended, (always turns (List.prefix_refl _)).1 ended⟩

/-- The first wanted header ends a batch. Its block is there before the next batch is stored, and what is
then sent finds the channel closed. -/
theorem early_stop :
    let _ := Crates.standard
    let chain := Synced.chain (Synced.preceded 1999)
    let peers := Synced.peers (Synced.preceded 1999)
    let step := step ⟨1, 1, 4000⟩ peers 1681095600
    peers.Healthy 1681095600 chain ∧ chain.findIdx (1681095600 ≤ ·.time) = 4000 ∧
      ∃ turns, let d := execute step (start [false, true] [genesisBlockHeader]) turns
        d.blocksThread = .over (.ok ()) ∧ ¬d.headersThread.Through ∧
        (execute step d [.headers, .headers]).headersThread = .over channelIsClosed := by
  intro _ chain peers step
  have works : ∀ tag ∈ [1, 2], (Block.dated tag).blockHeader.validate = .ok true := by decide +kernel
  obtain ⟨turns, last, ended, left⟩ := Synced.stops_early works (n := 1999) rfl
  refine ⟨Synced.preceded_healthy works 1999, Synced.findIdx_preceded 1999, turns, ended, ?_⟩
  generalize execute _ _ turns = d at ended left ⊢
  constructor
  · rw [left]
    exact fun through => absurd through.1 (by simp)
  · have store : step d .headers = { d with
        shared := { d.shared with headers := d.shared.headers ++ [(Block.dated 2).blockHeader] }
        headersThread := .downloading true [.sendHeaders [(Block.dated 2).blockHeader]] last } := by
      simp only [step, ParallelDownload.step, headersStep, left]
      rfl
    rw [execute_cons, execute_cons, execute_nil, store]
    simp [step, ParallelDownload.step, headersStep, closed, ended, Effect.sendsHeaders]

end ParallelDownload

end BitcoinNode
