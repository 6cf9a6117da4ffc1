import BitcoinNode.AnnouncedHeaders
import BitcoinNode.DownloadRuns

/-! The pool of connections during the parallel download. Each connection is in the pool or with one
thread, as long as no list needs more of them at once than the pool has, and the comparison of the
counts neither underflows nor comes out early. -/
namespace BitcoinNode

/-- The steps that are left of such a thread. It stores only blocks with known hashes. -/
inductive Serving (known : List Hash) : List WorkerStep → Prop where
  | returnNode : Serving known [.returnNode]
  | report : Serving known [.report, .returnNode]
  | store {blocks : HashMap Hash Block} (asked : ∀ hash ∈ blocks.keys, hash ∈ known) :
      Serving known [.effect (.storeBlocks blocks), .report, .returnNode]
  | send {blocks : List Block} {steps : List WorkerStep} (more : Serving known steps) :
      Serving known (.effect (.sendBlocks blocks) :: steps)

theorem Serving.mono {known known' : List Hash} (part : known ⊆ known') {steps : List WorkerStep}
    (serving : Serving known steps) : Serving known' steps := by
  induction serving with
  | returnNode => exact .returnNode
  | report => exact .report
  | store asked => exact .store fun hash stored => part (asked hash stored)
  | send _ ih => exact .send ih

theorem Serving.sends {known : List Hash} (sent : List (List Block)) {steps : List WorkerStep}
    (serving : Serving known steps) :
    Serving known ((sent.map fun blocks => .effect (.sendBlocks blocks)) ++ steps) := by
  induction sent with
  | nil => exact serving
  | cons blocks rest ih => exact .send ih

/-- The thread did not fail, and is over or serving. -/
def Worker.Sound (known : List Hash) (w : Worker ν) : Prop :=
  w.result = .ok () ∧ (w.steps = [] ∨ Serving known w.steps)

theorem Worker.Sound.mono {known known' : List Hash} (part : known ⊆ known') {w : Worker ν}
    (sound : w.Sound known) : w.Sound known' :=
  ⟨sound.1, sound.2.imp_right (Serving.mono part)⟩

theorem Config.worker_sound [Crates] {config : Config} {peers : Peers ν} {node : ν} {chunk : List BlockHeader}
    (positive : 0 < config.blocksDownloadPerNode) (serves : (peers.blocks node chunk).Serves chunk) :
    (config.worker peers node chunk).Sound (chunk.map BlockHeader.hash) ∧
      (config.worker peers node chunk).held = [node] := by
  obtain ⟨sent, hashes, worker⟩ := config.worker_serves positive serves
  rw [worker]
  refine ⟨⟨rfl, .inr (.sends sent (.store fun hash key => ?_))⟩, by simp [Worker.held]⟩
  obtain ⟨b, member, rfl⟩ := (mem_insert_blocks.mp key).resolve_right (by simp)
  rw [← hashes]
  exact List.mem_map_of_mem member

theorem Config.chunks_to_download_ok (config : Config) {list : List BlockHeader} (some : list ≠ []) :
    ∃ chunks, config.chunksToDownload list = .ok chunks ∧ chunks.flatten = list := by
  have nonempty := List.length_pos_iff.mpr some
  have positive (nThreads : Nat) : 0 < equalChunkSize list.length nThreads := by
    rw [equalChunkSize]
    split_ifs with none empty
    · omega
    · decide
    · exact Nat.div_pos (by omega) (Nat.pos_of_ne_zero none)
  obtain ⟨chunks, divided, whole, _⟩ := chunks_ok (positive _) list
  exact ⟨chunks, divided, whole⟩

namespace ParallelDownload

section Turns

variable [Crates] (config : Config) (peers : Peers ν) (d : ParallelDownload ν)

/-- What a step of the thread of the blocks can do. -/
inductive BlocksTurn : ParallelDownload ν → Prop where
  | waitList (receiving : d.blocksThread = .receiving) (none : d.shared.rx = []) : BlocksTurn d
  | noElements {rx : List (List BlockHeader)} (receiving : d.blocksThread = .receiving)
      (front : d.shared.rx = [] :: rx) :
      BlocksTurn { d with
        shared := { d.shared with rx }
        received := d.received ++ [[]]
        blocksThread := .over (Outcome.fail (.ThreadChannelError "The list has 0 elements!")) }
  | undivided {list : List BlockHeader} {rx : List (List BlockHeader)} {e : Failure Empty}
      (receiving : d.blocksThread = .receiving) (front : d.shared.rx = list :: rx) (some : list ≠ [])
      (failed : config.chunksToDownload list = .error e) :
      BlocksTurn { d with
        shared := { d.shared with rx }
        received := d.received ++ [list]
        blocksThread := .over (.error e.widen) }
  | divide {list : List BlockHeader} {rx chunks : List (List BlockHeader)}
      (receiving : d.blocksThread = .receiving) (front : d.shared.rx = list :: rx) (some : list ≠ [])
      (divided : config.chunksToDownload list = .ok chunks) :
      BlocksTurn { d with
        shared := { d.shared with rx }
        received := d.received ++ [list]
        blocksThread := .starting chunks }
  | allStarted (starting : d.blocksThread = .starting []) : BlocksTurn { d with blocksThread := .joining }
  | noNode {chunk : List BlockHeader} {chunks : List (List BlockHeader)}
      (starting : d.blocksThread = .starting (chunk :: chunks)) (empty : d.nodes = []) :
      BlocksTurn { d with blocksThread := .over noMoreNodes }
  | start {chunk : List BlockHeader} {chunks : List (List BlockHeader)} {nodes : List ν} {node : ν}
      (starting : d.blocksThread = .starting (chunk :: chunks)) (pool : d.nodes = nodes ++ [node]) :
      BlocksTurn { d with
        nodes
        workers := d.workers ++ [config.worker peers node chunk]
        blocksThread := .starting chunks }
  | allJoined (joining : d.blocksThread = .joining) (none : d.workers = []) :
      BlocksTurn { d with blocksThread := .counting }
  | waitWorker (joining : d.blocksThread = .joining) : BlocksTurn d
  | join {w : Worker ν} {workers : List (Worker ν)} (joining : d.blocksThread = .joining)
      (first : d.workers = w :: workers) (done : w.steps = []) (ok : joined w.result = .ok ()) :
      BlocksTurn { d with workers }
  | joinFailed {w : Worker ν} {workers : List (Worker ν)} {e : Failure NodeCustomErrors}
      (joining : d.blocksThread = .joining) (first : d.workers = w :: workers)
      (failed : joined w.result = .error e) :
      BlocksTurn { d with blocksThread := .over (.error e) }
  | count (counting : d.blocksThread = .counting) :
      BlocksTurn { d with blocksThread := .comparing d.shared.headers.length }
  | underflow {amountOfHeaders : Nat} (comparing : d.blocksThread = .comparing amountOfHeaders)
      (below : amountOfHeaders < config.heightFirstBlockToDownload) :
      BlocksTurn { d with blocksThread := .over Outcome.panic }
  | complete {amountOfHeaders : Nat} (comparing : d.blocksThread = .comparing amountOfHeaders)
      (equal : d.shared.blocks.len = amountOfHeaders - config.heightFirstBlockToDownload) :
      BlocksTurn { d with blocksThread := .over (.ok ()) }
  | again {amountOfHeaders : Nat} (comparing : d.blocksThread = .comparing amountOfHeaders) :
      BlocksTurn { d with blocksThread := .receiving }
  | finished {result : Outcome NodeCustomErrors Unit} (ended : d.blocksThread = .over result) : BlocksTurn d

theorem blocks_step_turn : BlocksTurn config peers d (d.blocksStep config peers) := by
  rcases d with ⟨nodes, shared, received, headersThread, blocksThread, workers⟩
  rw [blocksStep]
  rcases blocksThread with _ | (_ | ⟨chunk, chunks⟩) | _ | _ | amountOfHeaders | result
  · rcases front : shared.rx with _ | ⟨list, rx⟩
    · exact .waitList rfl front
    · by_cases empty : list = []
      · subst empty
        exact .noElements rfl front
      · simp only [List.isEmpty_eq_false_iff.mpr empty, Bool.false_eq_true, if_false]
        rcases divided : config.chunksToDownload list with e | chunks
        · exact .undivided rfl front empty divided
        · exact .divide rfl front empty divided
  · exact .allStarted rfl
  · rcases pool : nodes.getLast? with _ | node
    · exact .noNode rfl (List.getLast?_eq_none_iff.mp pool)
    · exact .start rfl (List.dropLast_append_getLast? node pool).symm
  · rcases workers with _ | ⟨w, workers⟩
    · exact .allJoined rfl rfl
    · by_cases done : w.steps = []
      · simp only [List.isEmpty_iff.mpr done, if_true]
        rcases result : joined w.result with e | _
        · exact .joinFailed rfl rfl result
        · exact .join rfl rfl done result
      · simp only [List.isEmpty_eq_false_iff.mpr done, Bool.false_eq_true, if_false]
        exact .waitWorker rfl
  · exact .count rfl
  · dsimp only
    split_ifs with below equal
    · exact .underflow rfl below
    · exact .complete rfl equal
    · exact .again rfl
  · exact .finished rfl

/-- What a step of one of the other threads can do. -/
inductive WorkerTurn (i : Nat) : ParallelDownload ν → Prop where
  | idle : WorkerTurn i d
  | refused {before after : List (Worker ν)} {w : Worker ν} {effect : Effect} {steps : List WorkerStep}
      (here : d.workers = before ++ w :: after) (next : w.steps = .effect effect :: steps)
      (sends : effect.sendsHeaders = true) :
      WorkerTurn i { d with
        workers := before ++ ⟨w.node, [], Outcome.fail (.ThreadChannelError "sending on a closed channel")⟩ :: after }
  | effect {before after : List (Worker ν)} {w : Worker ν} {effect : Effect} {steps : List WorkerStep}
      (here : d.workers = before ++ w :: after) (next : w.steps = .effect effect :: steps) :
      WorkerTurn i { d with shared := effect.apply d.shared, workers := before ++ { w with steps } :: after }
  | underflow {before after : List (Worker ν)} {w : Worker ν} {steps : List WorkerStep}
      (atI : d.workers[i]? = some w) (here : d.workers = before ++ w :: after) (next : w.steps = .report :: steps)
      (below : d.shared.headers.length < config.heightFirstBlockToDownload) :
      WorkerTurn i { d with workers := before ++ ⟨w.node, [], Outcome.panic⟩ :: after }
  | report {before after : List (Worker ν)} {w : Worker ν} {steps : List WorkerStep}
      (here : d.workers = before ++ w :: after) (next : w.steps = .report :: steps) :
      WorkerTurn i { d with workers := before ++ { w with steps } :: after }
  | returnNode {before after : List (Worker ν)} {w : Worker ν} {steps : List WorkerStep}
      (here : d.workers = before ++ w :: after) (next : w.steps = .returnNode :: steps) :
      WorkerTurn i { d with nodes := d.nodes ++ [w.node], workers := before ++ { w with steps } :: after }

omit [Crates] in
theorem worker_step_turn (i : Nat) : WorkerTurn config d i (d.workerStep config i) := by
  rw [workerStep]
  rcases atI : d.workers[i]? with _ | w
  · exact .idle
  obtain ⟨before, after, here, set⟩ : ∃ before after, d.workers = before ++ w :: after ∧
      ∀ w', d.workers.set i w' = before ++ w' :: after := by
    obtain ⟨bound, rfl⟩ := List.getElem?_eq_some_iff.mp atI
    refine ⟨d.workers.take i, d.workers.drop (i + 1), ?_, fun w' => ?_⟩
    · rw [← List.drop_eq_getElem_cons bound, List.take_append_drop]
    · exact List.set_eq_take_append_cons_drop.trans (if_pos bound)
  simp only [set]
  rcases next : w.steps with _ | ⟨effect | _ | _, steps⟩
  · exact .idle
  · dsimp only
    split_ifs with refused
    · exact .refused here next ((Bool.and_eq_true _ _).mp refused).1
    · exact .effect here next
  · dsimp only
    split_ifs with below
    · exact .underflow atI here next below
    · exact .report here next
  · exact .returnNode here next

end Turns

def held (d : ParallelDownload ν) : List ν := d.headersThread.held ++ d.workers.flatMap Worker.held

/-- The hashes of the headers that the thread of the blocks took. -/
def asked [Crates] (d : ParallelDownload ν) : List Hash := d.received.flatten.map BlockHeader.hash

/-- All headers are stored and none of them was, or is going to be, sent. -/
def Idle (chain : List BlockHeader) (d : ParallelDownload ν) : Prop :=
  d.shared.headers = chain ∧ d.sent = [] ∧
    match d.headersThread with
    | .downloading _ steps _ => steps = [] ∨ steps = [.storeHeaders []]
    | _ => True

/-- What holds of the thread of the blocks where it is. -/
def Phase (d : ParallelDownload ν) : BlocksThread → Prop
  | .receiving => d.workers = []
  | .starting chunks =>
    d.received ≠ [] ∧ chunks.length ≤ d.nodes.length ∧ chunks.flatten ⊆ d.received.flatten
  | .joining => d.received ≠ []
  | .counting => d.received ≠ [] ∧ d.workers = []
  | .comparing _ => d.received ≠ [] ∧ d.workers = []
  | .over result => d.received ≠ [] ∧ d.workers = [] ∧ d.headersThread.Through ∧ result ≠ noMoreNodes

/-- Each connection is in the pool or held, unless one was dropped before there was anything to send. -/
structure Sound [Crates] (timestamp : UInt32) (chain : List BlockHeader) (nodes : List ν) (d : ParallelDownload ν) :
    Prop where
  follows : d.headersThread.Follows timestamp chain d.shared.headers d.sent
  pool : (d.nodes ++ d.held).Perm nodes ∨ d.Idle chain
  workers : ∀ w ∈ d.workers, w.Sound d.asked
  stored : ∀ hash ∈ d.shared.blocks.keys, hash ∈ d.asked
  phase : d.Phase d.blocksThread

/-- A list that is taken is divided in no more chunks than the pool has connections, and a chunk in
batches of some size. -/
structure Fits (config : Config) (d : ParallelDownload ν) (turn : DownloadTurn) : Prop where
  list : turn = .blocks → d.blocksThread = .receiving → ∀ list rx chunks, d.shared.rx = list :: rx → list ≠ [] →
    config.chunksToDownload list = .ok chunks → chunks.length ≤ d.nodes.length
  batches : turn = .blocks → ∀ chunk chunks, d.blocksThread = .starting (chunk :: chunks) →
    0 < config.blocksDownloadPerNode

/-- Besides, no count of headers comes out below the height of the first block, and the counts agree
only when no batch is left. -/
structure Suits (config : Config) (d : ParallelDownload ν) (turn : DownloadTurn) : Prop
    extends d.Fits config turn where
  report : ∀ i w steps, turn = .worker i → d.workers[i]? = some w → w.steps = .report :: steps →
    config.heightFirstBlockToDownload ≤ d.shared.headers.length
  compare : ∀ amountOfHeaders, turn = .blocks → d.blocksThread = .comparing amountOfHeaders →
    config.heightFirstBlockToDownload ≤ amountOfHeaders ∧
      (d.shared.blocks.len = amountOfHeaders - config.heightFirstBlockToDownload → d.headersThread.Through)

section Sound

variable [Crates] {config : Config} {peers : Peers ν} {timestamp : UInt32} {chain : List BlockHeader}
  {nodes : List ν} {d d' : ParallelDownload ν}

theorem Sound.listened (sound : d.Sound timestamp chain nodes) (closed : d.closed = true) :
    d.headersThread.Through := by
  have phase := sound.phase
  rw [ParallelDownload.closed] at closed
  generalize d.blocksThread = thread at closed phase
  cases thread with
  | «over» => exact phase.2.2.1
  | receiving | starting | joining | counting | comparing => cases closed

theorem Sound.started (sound : d.Sound timestamp chain nodes) (some : d.received ≠ []) :
    d.headersThread ≠ .starting := by
  intro starting
  have follows := sound.follows
  rw [starting] at follows
  exact some (List.append_eq_nil_iff.mp follows.2).1

/-- The thread of the headers leaves everything to the thread of the blocks that is its own. -/
theorem HeadersTurn.frame (sound : d.Sound timestamp chain nodes) (turn : HeadersTurn peers timestamp d d') :
    d'.received = d.received ∧ d'.workers = d.workers ∧ d'.blocksThread = d.blocksThread ∧
      d'.shared.blocks = d.shared.blocks ∧ (d.received ≠ [] → d.nodes.length ≤ d'.nodes.length) := by
  cases turn with
  | noNode | dropNode | refused | finished => exact ⟨rfl, rfl, rfl, rfl, fun _ => Nat.le_refl _⟩
  | takeNode starting => exact ⟨rfl, rfl, rfl, rfl, fun some => absurd starting (sound.started some)⟩
  | returnNode => exact ⟨rfl, rfl, rfl, rfl, fun _ => by simp⟩
  | @effect node effect steps last next =>
    have follows := sound.follows
    rw [next] at follows
    have own := follows.of_headers
    cases effect with
    | storeHeaders | sendHeaders => exact ⟨rfl, rfl, rfl, rfl, fun _ => Nat.le_refl _⟩
    | sendBlocks | storeBlocks => cases own

theorem HeadersTurn.pool (healthy : peers.Healthy timestamp chain) (sound : d.Sound timestamp chain nodes)
    (turn : HeadersTurn peers timestamp d d') : (d'.nodes ++ d'.held).Perm nodes ∨ d'.Idle chain := by
  cases turn with
  | noNode starting empty =>
    refine sound.pool.imp (fun pool => ?_) fun idle => ⟨idle.1, idle.2.1, trivial⟩
    simpa [held, starting, HeadersThread.held] using pool
  | @takeNode rest node starting last =>
    refine sound.pool.imp (fun pool => ?_) fun idle => ⟨idle.1, idle.2.1, .inr ?_⟩
    · simpa [held, starting, last, HeadersThread.held] using pool
    · obtain ⟨flat, short⟩ := healthy.headers node d.shared.headers [] (by simpa using idle.1)
      rw [(ended_taken short).of_nothing flat]
      rfl
  | returnNode done =>
    refine sound.pool.imp (fun pool => ?_) fun idle => ⟨idle.1, idle.2.1, trivial⟩
    simpa [held, done, HeadersThread.held] using pool
  | dropNode failed =>
    have follows := sound.follows
    rw [failed] at follows
    obtain ⟨lists, rest, found, steps, announced⟩ := follows.resolve_left (by simp [nodeAnnouncements])
    obtain ⟨rfl, rfl⟩ := announced_nil steps
    exact .inr ⟨announced.unwanted.1, announced.unwanted.2, trivial⟩
  | refused next sends closed =>
    have through := sound.listened closed
    rw [next] at through
    exact absurd through.1 (by simp)
  | effect next =>
    refine sound.pool.imp (fun pool => ?_) fun idle => ?_
    · simpa [held, next, HeadersThread.held] using pool
    · obtain ⟨whole, silent, steps⟩ := idle
      rw [next] at steps
      obtain ⟨rfl, rfl⟩ := List.cons.inj (steps.resolve_left (by simp))
      exact ⟨by simpa [Effect.apply] using whole, silent, .inl rfl⟩
  | finished => exact sound.pool

theorem Sound.headers_turn (healthy : peers.Healthy timestamp chain) (sound : d.Sound timestamp chain nodes)
    (turn : HeadersTurn peers timestamp d d') : d'.Sound timestamp chain nodes := by
  have follows := turn.follows healthy sound.follows sound.listened
  have pool := turn.pool healthy sound
  obtain ⟨received, workers, blocksThread, blocks, more⟩ := turn.frame sound
  have asked : d'.asked = d.asked := by rw [ParallelDownload.asked, received, ParallelDownload.asked]
  refine ⟨follows, pool, ?_, ?_, ?_⟩
  · rw [workers, asked]
    exact sound.workers
  · rw [blocks, asked]
    exact sound.stored
  · have phase := sound.phase
    rw [blocksThread]
    generalize d.blocksThread = thread at phase
    cases thread with
    | starting chunks =>
      simp only [Phase, received] at phase ⊢
      exact ⟨phase.1, phase.2.1.trans (more phase.1), phase.2.2⟩
    | «over» result =>
      simp only [Phase, received, workers] at phase ⊢
      exact ⟨phase.1, phase.2.1, turn.through phase.2.2.1, phase.2.2.2⟩
    | receiving | joining | counting | comparing => simpa only [Phase, received, workers] using phase

theorem Sound.advance (sound : d.Sound timestamp chain nodes) {thread : BlocksThread} (phase : d.Phase thread) :
    Sound timestamp chain nodes { d with blocksThread := thread } :=
  ⟨sound.follows, sound.pool, sound.workers, sound.stored, phase⟩

theorem Sound.take_list (sound : d.Sound timestamp chain nodes) {list : List BlockHeader}
    {rx : List (List BlockHeader)} (front : d.shared.rx = list :: rx) {thread : BlocksThread}
    (phase : Phase { d with shared := { d.shared with rx }, received := d.received ++ [list] } thread) :
    Sound timestamp chain nodes
      { d with shared := { d.shared with rx }, received := d.received ++ [list], blocksThread := thread } := by
  have sent : d.received ++ [list] ++ rx = d.sent := by rw [ParallelDownload.sent, front, List.append_assoc]; rfl
  have more : d.asked ⊆ (d.received ++ [list]).flatten.map BlockHeader.hash := by
    simp [ParallelDownload.asked]
  have follows := sound.follows
  rw [← sent] at follows
  refine ⟨follows, sound.pool.imp_right fun idle => ⟨idle.1, sent.trans idle.2.1, idle.2.2⟩,
    fun w member => (sound.workers w member).mono more, fun hash key => more (sound.stored hash key), phase⟩

theorem Sound.start_worker (healthy : peers.Healthy timestamp chain) (sound : d.Sound timestamp chain nodes)
    (positive : 0 < config.blocksDownloadPerNode) {chunk : List BlockHeader}
    (part : chunk ⊆ d.received.flatten) (some : d.received ≠ []) {rest : List ν} {node : ν}
    (last : d.nodes = rest ++ [node]) {thread : BlocksThread}
    (phase : Phase { d with nodes := rest, workers := d.workers ++ [config.worker peers node chunk] } thread) :
    Sound timestamp chain nodes { d with
      nodes := rest
      workers := d.workers ++ [config.worker peers node chunk]
      blocksThread := thread } := by
  obtain ⟨more, lists, whole, ends⟩ := sound.follows.chain
  have wanted : chunk ⊆ chain.dropWhile (·.time < timestamp) := fun header member =>
    ends.subset whole (by
      rw [ParallelDownload.sent, List.append_assoc, List.flatten_append]
      exact List.mem_append_left _ (part member))
  obtain ⟨started, holds⟩ := Config.worker_sound positive (healthy.blocks node chunk wanted)
  have known : chunk.map BlockHeader.hash ⊆ d.asked := List.map_subset _ part
  refine ⟨sound.follows, sound.pool.imp (fun pool => ?_) fun idle => ?_, ?_, sound.stored, phase⟩
  · classical
    rw [List.perm_iff_count] at pool ⊢
    intro node'
    rw [← pool node', last]
    simp only [ParallelDownload.held, List.flatMap_append, List.flatMap_singleton, holds, List.count_append]
    omega
  · exact absurd (List.append_eq_nil_iff.mp idle.2.1).1 some
  · simp only [List.forall_mem_append, List.forall_mem_singleton]
    exact ⟨sound.workers, started.mono known⟩

theorem Sound.blocks_turn (healthy : peers.Healthy timestamp chain) (sound : d.Sound timestamp chain nodes)
    (suits : d.Suits config .blocks) (turn : BlocksTurn config peers d d') : d'.Sound timestamp chain nodes := by
  have phase := sound.phase
  cases turn with
  | waitList | waitWorker | finished => exact sound
  | noElements receiving front =>
    rw [receiving] at phase
    have through := sound.follows.through_of_empty (by simp [ParallelDownload.sent, front])
    exact sound.take_list front ⟨by simp, phase, through, by simp [noMoreNodes, Outcome.fail]⟩
  | undivided receiving front some failed =>
    obtain ⟨chunks, divided, _⟩ := config.chunks_to_download_ok some
    cases divided.symm.trans failed
  | @divide list rx chunks receiving front some divided =>
    rw [receiving] at phase
    obtain ⟨_, divided', whole⟩ := config.chunks_to_download_ok some
    obtain rfl := Except.ok.inj (divided'.symm.trans divided)
    refine sound.take_list front ⟨by simp, suits.list rfl receiving list rx _ front some divided, ?_⟩
    rw [whole]
    simp
  | allStarted starting =>
    rw [starting] at phase
    exact sound.advance phase.1
  | noNode starting empty =>
    rw [starting] at phase
    simp [Phase, empty] at phase
  | @start chunk chunks rest node starting last =>
    rw [starting] at phase
    obtain ⟨some, few, part⟩ := phase
    rw [List.flatten_cons, List.append_subset] at part
    rw [last, List.length_cons, List.length_append] at few
    exact sound.start_worker healthy (suits.batches rfl _ _ starting) part.1 some last
      ⟨some, Nat.le_of_succ_le_succ few, part.2⟩
  | allJoined joining none =>
    rw [joining] at phase
    exact sound.advance ⟨phase, none⟩
  | join joining first done ok =>
    rw [joining] at phase
    have workers := sound.workers
    rw [first] at workers
    refine ⟨sound.follows, sound.pool.imp_left fun pool => ?_, (List.forall_mem_cons.mp workers).2, sound.stored, ?_⟩
    · simpa [held, first, Worker.held, done] using pool
    · change Phase _ d.blocksThread
      rw [joining]
      exact phase
  | @joinFailed w workers e joining first failed =>
    have result := (sound.workers w (by simp [first])).1
    rw [result] at failed
    cases failed
  | count counting =>
    rw [counting] at phase
    exact sound.advance phase
  | underflow comparing below => exact absurd below (Nat.not_lt.mpr (suits.compare _ rfl comparing).1)
  | complete comparing equal =>
    rw [comparing] at phase
    have through := (suits.compare _ rfl comparing).2 equal
    exact sound.advance ⟨phase.1, phase.2, through, by simp [noMoreNodes, Outcome.fail]⟩
  | again comparing =>
    rw [comparing] at phase
    exact sound.advance phase.2

omit [Crates] in
/-- A thread that is started but not joined leaves the thread of the blocks where it is. -/
theorem Phase.working {thread : BlocksThread} (phase : d.Phase thread) (some : d.workers ≠ [])
    (received : d'.received = d.received) (more : d.nodes.length ≤ d'.nodes.length) : d'.Phase thread := by
  cases thread with
  | receiving => exact absurd phase some
  | starting chunks =>
    simp only [Phase, received] at phase ⊢
    exact ⟨phase.1, phase.2.1.trans more, phase.2.2⟩
  | joining => simpa only [Phase, received] using phase
  | counting | comparing => exact absurd phase.2 some
  | «over» => exact absurd phase.2.1 some

theorem Sound.set_worker (sound : d.Sound timestamp chain nodes) {before after : List (Worker ν)} {w : Worker ν}
    (here : d.workers = before ++ w :: after) (steps : List WorkerStep) (left : steps = [] ∨ Serving d.asked steps)
    {nodes' : List ν} {shared : Download}
    (headers : shared.headers = d.shared.headers) (rx : shared.rx = d.shared.rx)
    (stored : ∀ hash ∈ shared.blocks.keys, hash ∈ d.asked)
    (more : d.nodes.length ≤ nodes'.length) (same : (nodes' ++ Worker.held { w with steps }).Perm (d.nodes ++ w.held)) :
    Sound timestamp chain nodes { d with nodes := nodes', shared, workers := before ++ { w with steps } :: after } := by
  have sent : d.received ++ shared.rx = d.sent := by rw [rx, ParallelDownload.sent]
  have follows := sound.follows
  have workers := sound.workers
  rw [← headers, ← sent] at follows
  rw [here] at workers
  refine ⟨follows, sound.pool.imp (fun pool => ?_) fun idle => ?_, ?_, stored,
    sound.phase.working (by simp [here]) rfl more⟩
  · classical
    rw [List.perm_iff_count] at pool same ⊢
    intro node
    have balance := same node
    rw [← pool node]
    simp only [ParallelDownload.held, here, List.flatMap_append, List.flatMap_cons, List.count_append] at balance ⊢
    omega
  · obtain ⟨whole, silent, steps⟩ := idle
    exact ⟨headers.trans whole, sent.trans silent, steps⟩
  · simp only [List.forall_mem_append, List.forall_mem_cons] at workers ⊢
    exact ⟨workers.1, ⟨workers.2.1.1, left⟩, workers.2.2⟩

theorem Sound.worker_turn (sound : d.Sound timestamp chain nodes) {i : Nat}
    (suits : d.Suits config (.worker i)) (turn : WorkerTurn config d i d') : d'.Sound timestamp chain nodes := by
  have serving {before after : List (Worker ν)} {w : Worker ν} {step : WorkerStep} {steps : List WorkerStep}
      (here : d.workers = before ++ w :: after) (next : w.steps = step :: steps) :
      Serving d.asked (step :: steps) := by
    have atWork := (sound.workers w (by simp [here])).2
    rw [next] at atWork
    exact atWork.resolve_left (by simp)
  cases turn with
  | idle => exact sound
  | refused here next sends =>
    have served := serving here next
    cases served <;> cases sends
  | @effect before after w effect steps here next =>
    have served := serving here next
    cases served with
    | store asked =>
      refine sound.set_worker here _ (.inr .report) rfl rfl (fun hash key => ?_) (Nat.le_refl _) ?_
      · exact (HashMap.mem_keys_extend.mp key).elim (sound.stored hash) (asked hash)
      · simp [Worker.held, next]
    | send more =>
      refine sound.set_worker here _ (.inr more) rfl rfl sound.stored (Nat.le_refl _) ?_
      cases more <;> simp [Worker.held, next]
  | underflow atI here next below => exact absurd below (Nat.not_lt.mpr (suits.report i _ _ rfl atI next))
  | report here next =>
    have served := serving here next
    cases served
    exact sound.set_worker here _ (.inr .returnNode) rfl rfl sound.stored (Nat.le_refl _)
      (by simp [Worker.held, next])
  | returnNode here next =>
    have served := serving here next
    cases served
    exact sound.set_worker here _ (.inl rfl) rfl rfl sound.stored (by simp) (by simp [Worker.held, next])

end Sound

section Runs

variable [Crates] {config : Config} {peers : Peers ν} {timestamp : UInt32} {d : ParallelDownload ν}

theorem run_headers (effects : List Effect) {node : ν} {rest : List Effect} {last : Bool}
    (next : d.headersThread = .downloading node (effects ++ rest) last) (listens : d.closed = false) :
    execute (step config peers timestamp) d (List.replicate effects.length .headers) =
      { d with shared := effects.foldl Effect.apply d.shared, headersThread := .downloading node rest last } := by
  induction effects generalizing d with
  | nil =>
    rw [List.nil_append] at next
    rw [List.foldl_nil, ← next]
    rfl
  | cons effect effects ih =>
    have first : d.headersStep peers timestamp =
        { d with shared := effect.apply d.shared, headersThread := .downloading node (effects ++ rest) last } := by
      rw [headersStep, next]
      simp [listens]
    rw [List.length_cons, List.replicate_succ, execute_cons, step, first]
    exact ih rfl listens

/-- The only thread that downloads a chunk alone. -/
theorem run_worker (effects : List Effect) {w : Worker ν} {rest : List WorkerStep}
    (alone : d.workers = [{ w with steps := effects.map .effect ++ rest }])
    (own : ∀ effect ∈ effects, ¬effect.OfHeaders) {Q : ParallelDownload ν → DownloadTurn → Prop}
    (meets : ∀ shared workers, shared.headers = d.shared.headers → Q { d with shared, workers } (.worker 0)) :
    execute (step config peers timestamp) d (List.replicate effects.length (.worker 0)) =
        { d with shared := effects.foldl Effect.apply d.shared, workers := [{ w with steps := rest }] } ∧
      EachCall (step config peers timestamp) Q d (List.replicate effects.length (.worker 0)) := by
  induction effects generalizing d with
  | nil =>
    rw [List.map_nil, List.nil_append] at alone
    rw [List.foldl_nil, ← alone]
    exact ⟨rfl, eachCall_nil⟩
  | cons effect effects ih =>
    obtain ⟨silent, others⟩ := List.forall_mem_cons.mp own
    have unsent : effect.sendsHeaders = false := by
      cases effect with
      | storeHeaders | sendHeaders => exact absurd trivial silent
      | sendBlocks | storeBlocks => rfl
    have headers : (effect.apply d.shared).headers = d.shared.headers := by
      cases effect with
      | storeHeaders | sendHeaders => exact absurd trivial silent
      | sendBlocks | storeBlocks => rfl
    have first : d.step config peers timestamp (.worker 0) = { d with
        shared := effect.apply d.shared
        workers := [{ w with steps := effects.map .effect ++ rest }] } := by
      simp [step, workerStep, alone, unsent]
    rw [List.length_cons, List.replicate_succ, execute_cons, eachCall_cons, first]
    obtain ⟨ran, each⟩ := @ih { d with
        shared := effect.apply d.shared
        workers := [{ w with steps := effects.map .effect ++ rest }] } rfl others
      fun shared workers same => meets shared workers (same.trans headers)
    exact ⟨ran, meets d.shared d.workers rfl, each⟩

omit [Crates] in
theorem serving_apply (sent : List (List Block)) (blocks : HashMap Hash Block) (shared : Download) :
    ∃ rxUtxoSet, (sent.map Effect.sendBlocks ++ [Effect.storeBlocks blocks]).foldl Effect.apply shared =
      { shared with rxUtxoSet, blocks := shared.blocks.extend blocks } := by
  induction sent generalizing shared with
  | nil => exact ⟨shared.rxUtxoSet, rfl⟩
  | cons first sent ih => exact ih _

/-- One chunk is downloaded by one thread from beginning to end, while nothing else goes on. -/
theorem run_chunk {chunk : List BlockHeader} {nodes : List ν} {node : ν}
    (starting : d.blocksThread = .starting [chunk]) (pool : d.nodes = nodes ++ [node]) (alone : d.workers = [])
    (positive : 0 < config.blocksDownloadPerNode) (serves : (peers.blocks node chunk).Serves chunk)
    (enough : config.heightFirstBlockToDownload ≤ d.shared.headers.length)
    {Q : ParallelDownload ν → DownloadTurn → Prop}
    (meets : ∀ nodes shared thread workers, thread ≠ .receiving → (∀ amount, thread ≠ .comparing amount) →
      Q { d with nodes, shared, blocksThread := thread, workers } .blocks)
    (workerMeets : ∀ nodes shared thread workers, shared.headers = d.shared.headers →
      Q { d with nodes, shared, blocksThread := thread, workers } (.worker 0)) :
    ∃ turns blocks rxUtxoSet, blocks.map Block.hash = chunk.map BlockHeader.hash ∧
      execute (step config peers timestamp) d turns = { d with
        shared := { d.shared with rxUtxoSet, blocks := d.shared.blocks.extend (insertBlocks blocks ∅) }
        blocksThread := .comparing d.shared.headers.length } ∧
      EachCall (step config peers timestamp) Q d turns := by
  obtain ⟨sent, hashes, worker⟩ := Config.worker_serves positive serves
  obtain ⟨rxUtxoSet, applied⟩ := serving_apply sent (insertBlocks sent.flatten ∅) d.shared
  let effects := sent.map Effect.sendBlocks ++ [Effect.storeBlocks (insertBlocks sent.flatten ∅)]
  let w : Worker ν := ⟨node, [], .ok ()⟩
  have own : ∀ effect ∈ effects, ¬effect.OfHeaders := by
    intro effect member
    rcases List.mem_append.mp member with sends | stores
    · obtain ⟨blocks, _, rfl⟩ := List.mem_map.mp sends
      exact id
    · rw [List.mem_singleton.mp stores]
      exact id
  let state (nodes : List ν) (shared : Download) (thread : BlocksThread) (workers : List (Worker ν)) :
      ParallelDownload ν := { d with nodes, shared, blocksThread := thread, workers }
  let working : Worker ν := { w with steps := effects.map .effect ++ [.report, .returnNode] }
  let reporting : Worker ν := { w with steps := [.report, .returnNode] }
  let returning : Worker ν := { w with steps := [.returnNode] }
  let stored : Download :=
    { d.shared with rxUtxoSet, blocks := d.shared.blocks.extend (insertBlocks sent.flatten ∅) }
  have start : d.step config peers timestamp .blocks = state nodes d.shared (.starting []) [working] := by
    simp [step, blocksStep, starting, pool, alone, worker, state, working, effects, w]
  have allStarted : (state nodes d.shared (.starting []) [working]).step config peers timestamp .blocks =
      state nodes d.shared .joining [working] := rfl
  have only : (state nodes d.shared .joining [working]).workers =
      [{ w with steps := effects.map .effect ++ [.report, .returnNode] }] := rfl
  obtain ⟨ran, each⟩ := @run_worker _ _ config peers timestamp _ effects w _ only own Q
    fun shared workers same => workerMeets nodes shared .joining workers same
  have ran : execute (step config peers timestamp) (state nodes d.shared .joining [working])
      (List.replicate effects.length (.worker 0)) = state nodes stored .joining [reporting] :=
    ran.trans (by rw [applied])
  have report : (state nodes stored .joining [reporting]).step config peers timestamp (.worker 0) =
      state nodes stored .joining [returning] := by
    simp [step, workerStep, state, reporting, returning, stored, Nat.not_lt.mpr enough]
  have returnNode : (state nodes stored .joining [returning]).step config peers timestamp (.worker 0) =
      state d.nodes stored .joining [w] := by
    simp [step, workerStep, state, returning, w, pool]
  have join : (state d.nodes stored .joining [w]).step config peers timestamp .blocks =
      state d.nodes stored .joining [] := rfl
  have allJoined : (state d.nodes stored .joining []).step config peers timestamp .blocks =
      state d.nodes stored .counting [] := rfl
  have count : (state d.nodes stored .counting []).step config peers timestamp .blocks =
      state d.nodes stored (.comparing d.shared.headers.length) [] := rfl
  refine ⟨[.blocks, .blocks] ++ (List.replicate effects.length (.worker 0) ++
    [.worker 0, .worker 0, .blocks, .blocks, .blocks]), sent.flatten, rxUtxoSet, hashes, ?_, ?_⟩
  · simp only [execute_append, execute_cons, execute_nil, start, allStarted, ran, report, returnNode, join,
      allJoined, count]
    simp only [state, stored, ← alone]
  · simp only [eachCall_append, eachCall_cons, execute_cons, execute_nil, start, allStarted, ran, report,
      returnNode, join, allJoined]
    refine ⟨⟨meets d.nodes d.shared d.blocksThread d.workers (by simp [starting]) (by simp [starting]),
      meets _ _ _ _ (by simp) (by simp), eachCall_nil⟩, each, workerMeets _ _ _ _ rfl, workerMeets _ _ _ _ rfl,
      meets _ _ _ _ (by simp) (by simp), meets _ _ _ _ (by simp) (by simp), meets _ _ _ _ (by simp) (by simp),
      eachCall_nil⟩

theorem len_served {chunk : List BlockHeader} {blocks : List Block}
    (hashes : blocks.map Block.hash = chunk.map BlockHeader.hash) (different : (chunk.map BlockHeader.hash).Nodup) :
    ((∅ : HashMap Hash Block).extend (insertBlocks blocks ∅)).len = chunk.length := by
  have keys : ((∅ : HashMap Hash Block).extend (insertBlocks blocks ∅)).keys =
      (chunk.map BlockHeader.hash).toFinset := by
    ext hash
    rw [HashMap.mem_keys_extend, mem_insert_blocks, List.mem_toFinset, ← hashes, List.mem_map]
    simp
  rw [HashMap.len, keys, List.toFinset_card_of_nodup different, List.length_map]

theorem complete_step {amount : Nat} (comparing : d.blocksThread = .comparing amount)
    (enough : config.heightFirstBlockToDownload ≤ amount)
    (equal : d.shared.blocks.len = amount - config.heightFirstBlockToDownload) :
    d.step config peers timestamp .blocks = { d with blocksThread := .over (.ok ()) } := by
  rw [step, blocksStep, comparing]
  simp only [if_neg (Nat.not_lt.mpr enough), if_pos equal]

end Runs

end ParallelDownload

/-- A block of the day on which the download begins. -/
def Block.dated [Crates] (tag : UInt8) : Block :=
  { Block.minted tag with blockHeader := { (Block.minted tag).blockHeader with time := 1681095600 } }

namespace Synced

variable [Crates]

def early : BlockHeader := (Block.minted 3).blockHeader

def full : List BlockHeader := List.replicate 2000 early

/-- The first header of the program, a batch that is not wanted, and these. -/
def chain (wanted : List BlockHeader) : List BlockHeader := genesisBlockHeader :: (full ++ wanted)

def block (header : BlockHeader) : Block :=
  if header = (Block.dated 1).blockHeader then .dated 1 else .dated 2

theorem dated_accepted {tag : UInt8} (work : (Block.dated tag).blockHeader.validate = .ok true) :
    (Block.dated tag).WellFormed ∧ (Block.dated tag).Accepted := by
  have valid : (Block.dated tag).WellFormed :=
    ⟨(Block.minted_wellFormed tag).txnCount, (Block.minted_wellFormed tag).transactions⟩
  have size : (Block.dated tag).marshalling.length ≤ 1048576 := by
    have count : (CompactSizeUint.new 1).marshalling.length = 1 := by decide
    have only : (Transaction.mint tag []).marshalling.length = 55 := rfl
    simp only [Block.marshalling, Block.dated, Block.minted, Block.mined, List.length_append,
      BlockHeader.marshalling_length, List.length_singleton, List.flatMap_singleton, count, only]
    omega
  exact ⟨valid, Block.accepted_iff.mpr ⟨work, Merkle.root_singleton _ _, size⟩⟩

theorem dropWhile_early (n : Nat) (wanted : List BlockHeader) :
    (List.replicate n early ++ wanted).dropWhile (·.time < 1681095600) =
      wanted.dropWhile (·.time < 1681095600) := by
  have before : early.time < 1681095600 := by
    change (0 : UInt32) < 1681095600
    decide
  exact List.dropWhile_append_of_pos fun header member => by
    rw [List.eq_of_mem_replicate member]
    exact decide_eq_true before

theorem dropWhile_chain (n : Nat) (front : List BlockHeader) :
    (chain (List.replicate n early ++ front)).dropWhile (·.time < 1681095600) =
      front.dropWhile (·.time < 1681095600) := by
  have genesis : genesisBlockHeader.time < 1681095600 := by decide
  rw [chain, List.dropWhile_cons_of_pos (by simpa using genesis), full, dropWhile_early, dropWhile_early]

theorem healthy {wanted front : List BlockHeader} {n : Nat} (shape : wanted = List.replicate n early ++ front)
    (works : ∀ tag ∈ [1, 2], (Block.dated tag).blockHeader.validate = .ok true)
    (dated : ∀ header ∈ front, header = (Block.dated 1).blockHeader ∨ header = (Block.dated 2).blockHeader) :
    (Peers.synced (chain wanted) block : Peers ν).Healthy 1681095600 (chain wanted) := by
  refine Peers.synced_healthy fun header member => ?_
  rw [shape, dropWhile_chain] at member
  rcases dated header ((List.dropWhile_suffix _).subset member) with rfl | rfl
  · rw [block, if_pos rfl]
    exact ⟨rfl, dated_accepted (works 1 (by simp))⟩
  · rw [block]
    split_ifs with same
    · exact ⟨same.symm, dated_accepted (works 1 (by simp))⟩
    · exact ⟨rfl, dated_accepted (works 2 (by simp))⟩

theorem late_early {front : List BlockHeader} (isLate : late 1681095600 front = true) (n : Nat) :
    late 1681095600 (List.replicate n early ++ front) = true := by
  obtain ⟨lastHeader, last, dated⟩ := (Option.any_eq_true _ _).mp isLate
  rw [late, List.getLast?_append, last]
  exact dated

theorem handed_early {header : BlockHeader} {more : List BlockHeader} (first : ¬header.time < 1681095600)
    (isLate : late 1681095600 (header :: more) = true) (n : Nat) :
    handed 1681095600 false [List.replicate n early ++ header :: more] = [header :: more] := by
  rw [handed, if_pos (late_early isLate n), dropWhile_early, List.dropWhile_cons_of_neg (by simpa using first)]
  rfl

theorem full_length : full.length = 2000 := List.length_replicate

theorem headers_first (wanted : List BlockHeader) (node : ν) :
    (Peers.synced (chain wanted) block : Peers ν).headers node [genesisBlockHeader] =
      full :: replies (2000 + wanted.length) wanted := by
  have length : (chain wanted).length = 2000 + wanted.length + 1 := by
    rw [chain, List.length_cons, List.length_append, full_length]
  rw [Peers.synced]
  dsimp only
  rw [length]
  exact replies_full full_length

/-- The first steps of the thread of the headers: two batches are stored, and what is wanted of the
second one is sent. -/
theorem announce_first {config : Config} {nodes : List ν} {node : ν} {header : BlockHeader}
    {more wanted : List BlockHeader}
    {rest : List (List BlockHeader)} {n : Nat} (first : ¬header.time < 1681095600)
    (isLate : late 1681095600 (header :: more) = true)
    (batches : taken ((Peers.synced (chain wanted) block : Peers ν).headers node [genesisBlockHeader]) =
      full :: (List.replicate n early ++ header :: more) :: rest) :
    execute (ParallelDownload.step config (.synced (chain wanted) block) 1681095600)
        (.start (nodes ++ [node]) [genesisBlockHeader]) (List.replicate 4 .headers) =
      ⟨nodes, ⟨chain (List.replicate n early ++ header :: more), [header :: more], [], ∅⟩, [],
        .downloading node (announcements 1681095600 true rest) (finishes 1681095600 false
          ((List.replicate n early ++ header :: more) :: rest)), .receiving, []⟩ := by
  let effects : List Effect := [.storeHeaders full, .storeHeaders (List.replicate n early ++ header :: more),
    .sendHeaders (header :: more)]
  have steps : nodeAnnouncements 1681095600
      (full :: (List.replicate n early ++ header :: more) :: rest) =
        effects ++ announcements 1681095600 true rest := by
    rw [nodeAnnouncements, announcements, handed_early first isLate, late_early isLate]
    rfl
  have last := node_finishes_taken 1681095600
    ((Peers.synced (chain wanted) block : Peers ν).headers node [genesisBlockHeader])
  rw [batches, nodeFinishes, full, List.length_replicate] at last
  have takenNode : ParallelDownload.headersStep (.synced (chain wanted) block) 1681095600
      (.start (nodes ++ [node]) [genesisBlockHeader]) =
        ⟨nodes, ⟨[genesisBlockHeader], [], [], ∅⟩, [], .downloading node
          (effects ++ announcements 1681095600 true rest) (finishes 1681095600 false
            ((List.replicate n early ++ header :: more) :: rest)), .receiving, []⟩ := by
    rw [← steps, ← batches]
    simp [ParallelDownload.headersStep, ParallelDownload.start, ← last]
  rw [List.replicate_succ, execute_cons, ParallelDownload.step, takenNode]
  apply (ParallelDownload.run_headers effects rfl rfl).trans
  simp only [effects, List.foldl, Effect.apply, chain, List.cons_append, List.nil_append]

def two : List BlockHeader := [(Block.dated 1).blockHeader, (Block.dated 2).blockHeader]

def peers (wanted : List BlockHeader) : Peers Bool := .synced (chain wanted) block

theorem announce_two (config : Config) :
    execute (ParallelDownload.step config (peers two) 1681095600) (.start [false, true] [genesisBlockHeader])
        (List.replicate 4 .headers) =
      ⟨[false], ⟨chain two, [two], [], ∅⟩, [], .downloading true [] true, .receiving, []⟩ := by
  have batches : taken ((peers two).headers true [genesisBlockHeader]) = [full, two] := by
    rw [peers, headers_first, taken, if_pos full_length, replies_short (by simp [two])]
    rfl
  have dated (tag : UInt8) : (Block.dated tag).blockHeader.time = 1681095600 := rfl
  exact @announce_first _ _ config [false] true _ _ _ _ 0 (by rw [dated]; decide) (by simp [late, dated]) batches

def config : Config := ⟨1, 2, 2001⟩

theorem two_healthy (works : ∀ tag ∈ [1, 2], (Block.dated tag).blockHeader.validate = .ok true) :
    (peers two).Healthy 1681095600 (chain two) :=
  healthy (show two = List.replicate 0 early ++ two from rfl) works (by simp [two])

theorem divide_two : config.chunksToDownload two = .ok [two] := by
  simp [Config.chunksToDownload, divideBlocksToDownloadInEqualChunks, equalChunkSize, chunks, config, two]

def Meets (d : ParallelDownload Bool) (turn : DownloadTurn) : Prop :=
  d.Suits config turn ∧ (turn = .blocks → d.headersThread.Through)

theorem length_two : (chain two).length = 2003 := by
  rw [chain, List.length_cons, List.length_append, full_length]
  rfl

theorem complete_run (works : ∀ tag ∈ [1, 2], (Block.dated tag).blockHeader.validate = .ok true)
    (different : (Block.dated 1).hash ≠ (Block.dated 2).hash) :
    ∃ turns, EachCall (ParallelDownload.step config (peers two) 1681095600) Meets
        (.start [false, true] [genesisBlockHeader]) turns ∧
      let d := execute (ParallelDownload.step config (peers two) 1681095600)
        (.start [false, true] [genesisBlockHeader]) turns
      d.headersThread = .over (.ok ()) ∧ d.blocksThread = .over (.ok ()) := by
  let taken : ParallelDownload Bool :=
    ⟨[false, true], ⟨chain two, [], [], ∅⟩, [two], .over (.ok ()), .starting [two], []⟩
  have nonempty : two.isEmpty = false := rfl
  have take : ParallelDownload.step config (peers two) 1681095600
      ⟨[false, true], ⟨chain two, [two], [], ∅⟩, [], .over (.ok ()), .receiving, []⟩ .blocks = taken := by
    simp [ParallelDownload.step, ParallelDownload.blocksStep, nonempty, divide_two, taken]
  have wanted : two ⊆ (chain two).dropWhile (·.time < 1681095600) := by
    have kept := dropWhile_chain 0 two
    rw [List.replicate_zero, List.nil_append] at kept
    rw [kept]
    simp [two, Block.dated]
  have enough : 2001 ≤ (chain two).length := by
    rw [length_two]
    omega
  have pool : taken.nodes = [false] ++ [true] := rfl
  have begun : taken.blocksThread = .starting [two] := rfl
  obtain ⟨turns, blocks, rxUtxoSet, hashes, ran, each⟩ := ParallelDownload.run_chunk begun pool rfl
    (show 0 < config.blocksDownloadPerNode by decide) ((two_healthy works).blocks true two wanted) enough (Q := Meets)
    (fun nodes shared thread workers taken counted => by
      refine ⟨⟨⟨fun _ receiving => absurd receiving taken, fun _ _ _ _ => by decide⟩, by simp, ?_⟩, fun _ => trivial⟩
      exact fun amount _ comparing => absurd comparing (counted amount))
    (fun nodes shared thread workers same =>
      ⟨⟨⟨by simp, by simp⟩, fun _ _ _ _ _ _ => same ▸ enough, by simp⟩, by simp⟩)
  have announced := announce_two config
  have finish : ParallelDownload.step config (peers two) 1681095600
      ⟨[false], ⟨chain two, [two], [], ∅⟩, [], .downloading true [] true, .receiving, []⟩ .headers =
      ⟨[false, true], ⟨chain two, [two], [], ∅⟩, [], .over (.ok ()), .receiving, []⟩ := rfl
  refine ⟨List.replicate 4 .headers ++ .headers :: .blocks :: (turns ++ [.blocks]), ?_, ?_⟩
  · have headersMeet (d : ParallelDownload Bool) : Meets d .headers :=
      ⟨⟨⟨by simp, by simp⟩, by simp, by simp⟩, by simp⟩
    have takeMeets : Meets ⟨[false, true], ⟨chain two, [two], [], ∅⟩, [], .over (.ok ()), .receiving, []⟩ .blocks := by
      refine ⟨⟨⟨fun _ _ list rx chunks front _ divided => ?_, by simp⟩, by simp, by simp⟩, fun _ => trivial⟩
      obtain ⟨rfl, _⟩ := List.cons.inj front
      obtain rfl := Except.ok.inj (divide_two.symm.trans divided)
      exact Nat.le_succ 1
    have compareMeets (shared : Download) :
        Meets { taken with shared, blocksThread := .comparing (chain two).length } .blocks := by
      refine ⟨⟨⟨by simp, by simp⟩, by simp, fun amount _ comparing => ?_⟩, fun _ => trivial⟩
      obtain rfl := BlocksThread.comparing.inj comparing
      exact ⟨enough, fun _ => trivial⟩
    rw [eachCall_append, announced, eachCall_cons, eachCall_cons, finish, take, eachCall_append, ran, eachCall_cons]
    refine ⟨eachCall_of_forall (fun turn member d => ?_) _, headersMeet _, takeMeets, each, compareMeets _,
      eachCall_nil⟩
    rw [List.eq_of_mem_replicate member]
    exact headersMeet d
  · rw [execute_append, announced, execute_cons, execute_cons, finish, take, execute_append, ran, execute_cons]
    have stored := ParallelDownload.len_served hashes (by simpa [two, Block.hash] using different)
    rw [ParallelDownload.complete_step rfl enough (stored.trans (by rw [length_two]; rfl))]
    exact ⟨rfl, rfl⟩

end Synced

namespace ParallelDownload

section Pool

variable [Crates] {config : Config} {peers : Peers ν} {timestamp : UInt32} {chain : List BlockHeader}
  {nodes : List ν} {d : ParallelDownload ν}

theorem Sound.step (healthy : peers.Healthy timestamp chain) (sound : d.Sound timestamp chain nodes)
    {turn : DownloadTurn} (suits : d.Suits config turn) :
    (d.step config peers timestamp turn).Sound timestamp chain nodes := by
  cases turn with
  | headers => exact sound.headers_turn healthy (headers_step_turn peers timestamp d)
  | blocks => exact sound.blocks_turn healthy suits (blocks_step_turn config peers d)
  | worker i => exact sound.worker_turn suits (worker_step_turn config d i)

theorem start_sound {headers more : List BlockHeader} (whole : headers ++ more = chain) :
    (start nodes headers).Sound timestamp chain nodes :=
  ⟨⟨⟨more, whole⟩, rfl⟩, .inl (by simp [start, held, HeadersThread.held]), by simp [start], by simp [start], rfl⟩

/-- With fewer connections than chunks the thread of the blocks runs out of them when it goes on alone. -/
theorem start_chunks {chunks : List (List BlockHeader)} (starting : d.blocksThread = .starting chunks)
    (many : d.nodes.length < chunks.length) :
    (execute (step config peers timestamp) d (List.replicate (d.nodes.length + 1) .blocks)).blocksThread =
      .over noMoreNodes := by
  induction chunks generalizing d with
  | nil => cases many
  | cons chunk chunks ih =>
    rcases List.eq_nil_or_concat' d.nodes with empty | ⟨rest, node, pool⟩
    · simp [step, blocksStep, starting, empty]
    · let started : ParallelDownload ν := { d with
        nodes := rest
        workers := d.workers ++ [config.worker peers node chunk]
        blocksThread := .starting chunks }
      have start : d.step config peers timestamp .blocks = started := by
        simp [step, blocksStep, starting, pool, started]
      have length : d.nodes.length = rest.length + 1 := by
        rw [pool, List.length_append, List.length_singleton]
      rw [length, List.length_cons] at many
      rw [length, List.replicate_succ, execute_cons, start]
      exact ih (d := started) rfl (Nat.lt_of_succ_lt_succ many)

/-- The thread of the blocks finds a connection whenever it needs one, and when both threads have
finished all connections are back. With more chunks than connections it need not find one. -/
theorem pool_suffices (healthy : peers.Healthy timestamp chain) {headers more : List BlockHeader}
    (whole : headers ++ more = chain) {turns : List DownloadTurn}
    (suits : EachCall (step config peers timestamp) (Suits config) (start nodes headers) turns) :
    Throughout (step config peers timestamp)
      (fun d => (d.blocksThread ≠ .over noMoreNodes ∧
        ∀ result result', d.headersThread = .over result → d.blocksThread = .over result' → d.nodes.Perm nodes) ∧
        ∀ list rx chunks, d.blocksThread = .receiving → d.shared.rx = list :: rx → list ≠ [] →
          config.chunksToDownload list = .ok chunks → d.nodes.length < chunks.length →
          ∃ n, (execute (step config peers timestamp) d (List.replicate n .blocks)).blocksThread = .over noMoreNodes)
      (start nodes headers) turns := by
  have always : Throughout (step config peers timestamp) (Sound timestamp chain nodes) (start nodes headers) turns :=
    .of_each (fun _ _ sound suits => sound.step healthy suits) (start_sound whole) suits
  refine always.imp fun d sound => ⟨?_, fun list rx chunks receiving front some divided many => ?_⟩
  · have phase := sound.phase
    constructor
    · intro ended
      rw [ended] at phase
      exact phase.2.2.2 rfl
    · intro result result' finished ended
      rw [ended] at phase
      obtain ⟨some, joined, _⟩ := phase
      rcases sound.pool with pool | idle
      · simpa [held, finished, joined, HeadersThread.held] using pool
      · exact absurd (List.append_eq_nil_iff.mp idle.2.1).1 some
  · have take : d.step config peers timestamp .blocks = { d with
        shared := { d.shared with rx }
        received := d.received ++ [list]
        blocksThread := .starting chunks } := by
      simp [step, blocksStep, receiving, front, some, divided]
    refine ⟨d.nodes.length + 1 + 1, ?_⟩
    rw [List.replicate_succ, execute_cons, take]
    exact start_chunks (d := { d with
      shared := { d.shared with rx }
      received := d.received ++ [list]
      blocksThread := .starting chunks }) rfl many

end Pool

theorem pool_suffices_two :
    let _ := Crates.standard
    let step := step Synced.config (Synced.peers Synced.two) 1681095600
    ∃ turns, (execute step (start [false, true] [genesisBlockHeader]) turns).blocksThread = .over (.ok ()) ∧
      (execute step (start [false, true] [genesisBlockHeader]) turns).nodes.Perm [false, true] := by
  intro _ step
  have works : ∀ tag ∈ [1, 2], (Block.dated tag).blockHeader.validate = .ok true := by decide +kernel
  have different : (Block.dated 1).hash ≠ (Block.dated 2).hash := by decide +kernel
  obtain ⟨turns, each, finished, ended⟩ := Synced.complete_run works different
  have suits : EachCall step (Suits Synced.config) (start [false, true] [genesisBlockHeader]) turns :=
    fun before call after split => (each before call after split).1
  have always := pool_suffices (Synced.two_healthy works)
    (show [genesisBlockHeader] ++ (Synced.full ++ Synced.two) = _ from rfl) suits
  exact ⟨turns, ended, (always turns (List.prefix_refl _)).1.2 _ _ finished ended⟩

/-- Two nodes and a list that is divided in two chunks: the thread of the headers has the one node, and
the thread of the blocks needs two. -/
theorem pool_runs_out :
    let _ := Crates.standard
    let peers := Synced.peers Synced.two
    peers.Healthy 1681095600 (Synced.chain Synced.two) ∧
      (execute (step ⟨2, 1, 2001⟩ peers 1681095600) (start [false, true] [genesisBlockHeader])
        (List.replicate 4 .headers ++ List.replicate 3 .blocks)).blocksThread = .over noMoreNodes := by
  intro _ peers
  refine ⟨Synced.two_healthy (by decide +kernel), ?_⟩
  · have divided : Config.chunksToDownload ⟨2, 1, 2001⟩ Synced.two =
        .ok [[(Block.dated 1).blockHeader], [(Block.dated 2).blockHeader]] := by
      simp [Config.chunksToDownload, divideBlocksToDownloadInEqualChunks, equalChunkSize, chunks,
        Synced.two, List.range_succ]
    have some : Synced.two.isEmpty = false := rfl
    rw [execute_append, Synced.announce_two]
    simp [step, blocksStep, divided, some]

end ParallelDownload

end BitcoinNode
