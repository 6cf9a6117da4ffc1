import BitcoinNode.HandOver
import BitcoinNode.InitialHeaders

/-! The download of the headers from a node of this program. What the node answers to getheaders messages is a
healthy peer, so the whole chain of the node is stored; the download fails only where an empty batch comes
before any header that is dated late enough. -/
namespace BitcoinNode

/-- As many headers as one message has, again and again, and then what is left. -/
def batches (headers : List BlockHeader) : List (List BlockHeader) :=
  if headers.length < 2000 then [headers] else headers.take 2000 :: batches (headers.drop 2000)
termination_by headers.length
decreasing_by
  rw [List.length_drop]
  omega

theorem batches_short {headers : List BlockHeader} (short : headers.length < 2000) : batches headers = [headers] := by
  rw [batches, if_pos short]

theorem batches_long {headers : List BlockHeader} (long : 2000 ≤ headers.length) :
    batches headers = headers.take 2000 :: batches (headers.drop 2000) := by
  rw [batches, if_neg (Nat.not_lt.mpr long)]

@[simp] theorem batches_flatten (headers : List BlockHeader) : (batches headers).flatten = headers := by
  induction headers using batches.induct with
  | case1 headers short => rw [batches_short short, List.flatten_singleton]
  | case2 headers long ih => rw [batches_long (Nat.not_lt.mp long), List.flatten_cons, ih, List.take_append_drop]

theorem batches_length (headers : List BlockHeader) : (batches headers).length = headers.length / 2000 + 1 := by
  induction headers using batches.induct with
  | case1 headers short => rw [batches_short short, Nat.div_eq_of_lt short, List.length_singleton]
  | case2 headers long ih =>
    rw [batches_long (Nat.not_lt.mp long), List.length_cons, ih, List.length_drop]
    omega

section Replies

variable [Crates]

/-- The messages that a node writes while it handles one. -/
def PeerState.replies (server : PeerState) (handle : Proc PeerState NodeCustomErrors Unit) :
    List (String × List UInt8) :=
  let written := ((handle.run server).2.tx.sent.drop server.tx.sent.length).flatten
  match ((readMessages (written.length + 1)).run [written]).1 with
  | .ok messages => messages
  | .error _ => []

theorem framed_length_pos {message : String × List UInt8} (sendable : Sendable message) {frame : List UInt8}
    (written : framed message = .ok frame) : 1 ≤ frame.length := by
  obtain ⟨header, shape⟩ := framed_shape sendable.name
  obtain rfl := Except.ok.inj (written.symm.trans shape)
  rw [List.length_append, header.property]
  omega

theorem frames_length {messages : List (String × List UInt8)} (sendable : ∀ message ∈ messages, Sendable message)
    {frames : List (List UInt8)} (written : messages.mapM framed = .ok frames) :
    messages.length ≤ frames.flatten.length := by
  rw [← Outcome.mapM_length written, List.length_flatten, ← List.length_map List.length]
  refine List.length_le_sum_of_one_le _ fun size member => ?_
  obtain ⟨frame, listed, rfl⟩ := List.mem_map.mp member
  obtain ⟨k, bound, rfl⟩ := List.getElem_of_mem listed
  have inside : k < messages.length := Outcome.mapM_length written ▸ bound
  obtain ⟨frame, found, frameOf⟩ := Outcome.mapM_getElem written (List.getElem?_eq_getElem inside)
  rw [List.getElem?_eq_getElem bound] at found
  obtain rfl := Option.some.inj found
  exact framed_length_pos (sendable _ (List.getElem_mem inside)) frameOf

theorem PeerState.replies_eq {server : PeerState} {handle : Proc PeerState NodeCustomErrors Unit}
    {messages : List (String × List UInt8)} (sendable : ∀ message ∈ messages, Sendable message)
    {frames sent : List (List UInt8)} (written : messages.mapM framed = .ok frames)
    (same : sent.flatten = frames.flatten)
    (handled : (handle.run server).2.tx.sent = server.tx.sent ++ sent) : server.replies handle = messages := by
  obtain ⟨frames', written', read⟩ := read_messages_framed sendable
  obtain rfl := Except.ok.inj (written'.symm.trans written)
  have enough := frames_length sendable written
  obtain ⟨_, read, _⟩ := read (frames'.flatten.length + 1) (Nat.le_succ_of_le enough)
  rw [replies, handled, List.drop_left, same]
  simp only [read]

/-- The payload of the headers message that a node answers with. -/
def HeadersPeer.running (server : PeerState) : HeadersPeer where
  answer request :=
    ((server.replies (handleGetheadersMessage request.payload.toLeBytes)).lookup "headers").getD []

/-- A node with a whole chain of headers. No other header is taken for the first one. -/
structure ServesHeaders (server : PeerState) : Prop where
  open_ : server.tx.open_ = true
  genesis : server.node.blockchain.headers.head? = some genesisBlockHeader
  indexed : server.node.blockchain.Indexed
  fits : server.node.blockchain.headers.length < 2 ^ 64
  valid : ∀ header ∈ server.node.blockchain.headers.tail, header.validate = .ok true
  named : ∀ header ∈ server.node.blockchain.headers.tail,
    header ≠ genesisBlockHeader ∧ header.hash ≠ genesisBlockHash

theorem ServesHeaders.index {server : PeerState} (serves : ServesHeaders server) {before back : List BlockHeader}
    {header : BlockHeader} (chain : server.node.blockchain.headers = before ++ header :: back) :
    getIndexOfHeader header.locatorHash server.node.blockchain = before.length := by
  cases before with
  | nil =>
    have first : header = genesisBlockHeader := by
      have genesis := serves.genesis
      rw [chain] at genesis
      exact Option.some.inj genesis
    rw [getIndexOfHeader, BlockHeader.locatorHash, if_pos first, if_pos rfl]
    rfl
  | cons first before =>
    have later : header ∈ server.node.blockchain.headers.tail := by simp [chain]
    obtain ⟨other, otherHash⟩ := serves.named header later
    have stored : server.node.blockchain.headers[before.length + 1]? = some header := by simp [chain]
    rw [getIndexOfHeader, BlockHeader.locatorHash, if_neg other, if_neg otherHash,
      serves.indexed _ (Nat.succ_pos _) header stored]
    rfl

omit [Crates] in
theorem sendable_headers {headers : List BlockHeader} (few : headers.length ≤ 2000) :
    Sendable ("headers", headersMessagePayload headers) := by
  refine ⟨show "headers".toUTF8.toList.length ≤ 12 by decide +kernel,
    show '\x00' ∉ "headers".toList by decide +kernel, ?_⟩
  have count : (CompactSizeUint.new headers.length).marshalling.length ≤ 9 := by
    rw [CompactSizeUint.marshalling, CompactSizeUint.new_length (by omega)]
    split_ifs <;> decide
  show (headersMessagePayload headers).length < 2 ^ 32
  rw [headers_message_payload_length]
  omega

theorem ServesHeaders.answer {server : PeerState} (serves : ServesHeaders server) (config : HeadersConfig)
    {before back : List BlockHeader} {header : BlockHeader}
    (chain : server.node.blockchain.headers = before ++ header :: back) :
    (HeadersPeer.running server).answer (.buildGetheadersMessage config [header.locatorHash]) =
      headersMessagePayload (back.take 2000) := by
  have index := serves.index chain
  let p : GetHeadersPayload := (GetHeadersMessage.buildGetheadersMessage config [header.locatorHash]).payload
  have valid : p.WellFormed := CompactSizeUint.new_counts (show 1 < 2 ^ 64 by decide)
  have bound : before.length + 1 ≤ server.node.blockchain.headers.length := by
    rw [chain, List.length_append, List.length_cons]
    omega
  have ends : server.node.blockchain.sliceEnd header.locatorHash p.stopHash =
      min (before.length + 2001) server.node.blockchain.headers.length := by
    rw [Blockchain.sliceEnd, if_pos (show p.stopHash = U8Array.replicate 32 0 from rfl), index]
  have sent : slice server.node.blockchain.headers (before.length + 1)
      (min (before.length + 2001) server.node.blockchain.headers.length) = back.take 2000 := by
    have split : server.node.blockchain.headers = (before ++ [header]) ++ back := by
      rw [chain, List.append_assoc, List.singleton_append]
    rw [slice, split, List.drop_left' (by simp), List.take_eq_take_iff]
    simp only [List.length_append, List.length_singleton]
    omega
  have few : (back.take 2000).length ≤ 2000 := List.length_take_le _ _
  obtain ⟨frame, written⟩ := framed_shape (sendable_headers few).name
  have handled := (handle_getheaders_message_sends valid rfl _).mpr ⟨serves.open_, by rw [index, ends]; omega,
    by rw [ends]; omega, _, by rw [index, ends, sent]; exact written, rfl⟩
  have only : ∀ message ∈ [("headers", headersMessagePayload (back.take 2000))], Sendable message :=
    fun message member => List.mem_singleton.mp member ▸ sendable_headers few
  have replies := server.replies_eq only (by rw [List.mapM_cons, written]; rfl) rfl (by rw [handled]; rfl)
  show ((server.replies (handleGetheadersMessage p.toLeBytes)).lookup "headers").getD [] = _
  rw [replies]
  rfl

/-- The node answers with the next headers of its chain, whatever part of it is stored already. -/
theorem ServesHeaders.healthy {server : PeerState} (serves : ServesHeaders server) {config : HeadersConfig}
    {s : HeadersDownload} {rest : List BlockHeader}
    (chain : server.node.blockchain.headers = s.blockchain.headers ++ rest) (stored : s.blockchain.headers ≠ [])
    (connected : 0 < s.node.requests) (idle : s.node.incoming = []) :
    HealthyPeer config (.running server) s rest := by
  refine ⟨connected, idle, stored, fun header member => ?_, fun front back hash split last => ?_⟩
  · refine serves.valid header ?_
    rw [chain, List.tail_append_of_ne_nil stored]
    exact List.mem_append_right _ member
  · obtain ⟨before, header, known, rfl⟩ := last_hash_eq_ok last
    have here : server.node.blockchain.headers = before ++ header :: back := by
      rw [chain, ← split, ← List.append_assoc, known, List.append_assoc, List.singleton_append]
    rw [serves.answer config here]
    exact HeadersMessage.unmarshalling_payload (by rw [List.length_take]; omega)

end Replies

section Rounds

variable [Crates] {config : HeadersConfig} {peer : HeadersPeer} {s : HeadersDownload} {rest : List BlockHeader}

/-- The next two thousand headers are stored with their heights, whatever is written to the file. -/
theorem HealthyPeer.next (healthy : HealthyPeer config peer s rest) (text : String)
    (write : List UInt8 → List UInt8 → List UInt8) : ∃ s',
      (nextHeaders config do
        peer.deliver
        orDownloadError text (readHeaders write)).run s = (.ok (rest.take 2000), s') ∧
      HealthyPeer config peer s' (rest.drop 2000) ∧ s'.blockchain = s.blockchain.load (rest.take 2000) ∧
      s'.tx = s.tx ∧ s'.nodes = s.nodes := by
  obtain ⟨hash, last⟩ := last_hash_of_stored healthy.stored
  obtain ⟨requests, left⟩ := Nat.exists_eq_succ_of_ne_zero (Nat.ne_of_gt healthy.connected)
  obtain ⟨stop, decoded⟩ := healthy.answers [] rest hash rfl (by rw [List.append_nil, last])
  have receives := or_download_error_receives text write
  let request := GetHeadersMessage.buildGetheadersMessage config [hash]
  have delivered : peer.deliver.run { s with node := { s.node with
      requests, written := s.node.written ++ [request] } } =
      (.ok (), { s with node := { s.node with
        requests := requests + 1, incoming := [peer.answer request], written := s.node.written ++ [request] } }) := by
    rw [HeadersPeer.deliver, Proc.run_modify]
    simp only [List.getLast?_concat, healthy.idle, List.nil_append]
  have received := (Proc.run_bind_ok (fun _ => orDownloadError text (readHeaders write)) delivered).trans
    (receives.offer _ _ [] _ _ rfl decoded)
  have valid : validateHeaders (rest.take 2000) = .ok () :=
    validate_headers_eq_ok.mpr fun header member => healthy.valid header (List.mem_of_mem_take member)
  refine ⟨{ s with
      node := { s.node with
        requests := requests + 1, incoming := [], written := s.node.written ++ [request] }
      blockchain := s.blockchain.load (rest.take 2000)
      file := write s.file (peer.answer request) }, ?_, ?_, rfl, rfl, rfl⟩
  · rw [nextHeaders, Proc.run_bind_ok _ (request_headers_ok config last left), Proc.run_bind_ok _ received]
    simp [Proc.run_bind, storeHeadersInLocalHeadersVec, valid, Blockchain.load, loadHeaderHeights]
  · constructor
    case connected => exact Nat.succ_pos _
    case idle => rfl
    case stored => exact List.append_ne_nil_of_left_ne_nil healthy.stored _
    case valid => exact fun header member => healthy.valid header (List.mem_of_mem_drop member)
    case answers =>
      intro front back hash split last
      refine healthy.answers (rest.take 2000 ++ front) back hash ?_ ?_
      · rw [List.append_assoc, split, List.take_append_drop]
      · rwa [← List.append_assoc]

end Rounds

section Missing

variable [Crates] [Chrono] {config : HeadersConfig} {timestamp : UInt32} {peer : HeadersPeer} {s : HeadersDownload}
  {rest : List BlockHeader}

/-- `while headers_read.len() == 2000 { .. }`, on any connection. -/
def missingHeadersRounds (config : HeadersConfig) (receive : DownloadingHeaders (List BlockHeader)) :
    (rounds : Nat) → List BlockHeader → (firstBlockFound : Bool) → DownloadingHeaders Unit
  | 0, _, _ => Proc.lift Outcome.abort
  | rounds + 1, headersRead, firstBlockFound =>
    if headersRead.length = 2000 then do
      let headersRead ← nextHeaders config receive
      let firstBlockFound ← handOver config headersRead firstBlockFound
      missingHeadersRounds config receive rounds headersRead firstBlockFound
    else return ()

theorem missing_headers_loop_eq (config : HeadersConfig) (rounds : Nat) (headersRead : List BlockHeader)
    (found : Bool) : missingHeadersLoop config rounds headersRead found =
      missingHeadersRounds config receiveHeadersFromNode rounds headersRead found := by
  induction rounds generalizing headersRead found with
  | zero => rfl
  | succ rounds ih =>
    rw [missingHeadersLoop, missingHeadersRounds]
    simp only [ih]

def HeadersPeer.receiveHeaders (peer : HeadersPeer) : DownloadingHeaders (List BlockHeader) := do
  peer.deliver
  receiveHeadersFromNode

/-- `downloadMissingHeadersFromNode`, on a connection to the peer. -/
def HeadersPeer.downloadMissingHeadersFromNode (peer : HeadersPeer) (config : HeadersConfig) (rounds : Nat) :
    DownloadingHeaders Unit := do
  let headersRead ← nextHeaders config peer.receiveHeaders
  missingHeadersRounds config peer.receiveHeaders rounds headersRead false

/-- What the rounds have done. -/
structure Fetched (s : HeadersDownload) (batches lists : List (List BlockHeader)) (finished : Bool)
    (r : Outcome NodeCustomErrors Unit × HeadersDownload) : Prop where
  blockchain : r.2.blockchain = s.blockchain.load batches.flatten
  sent : r.2.tx.sent = s.tx.sent ++ lists
  nodes : r.2.nodes = s.nodes
  ok_iff : r.1 = .ok () ↔ finished = true
  open_ : ∀ e, r.1 = .error e → ¬ChannelClosed e

theorem missing_headers_rounds_run (date : getFirstBlockTimestamp config = .ok timestamp)
    (healthy : HealthyPeer config peer s rest) {rounds : Nat} (enough : (batches rest).length < rounds)
    (left : (batches rest).length ≤ s.tx.accepts) {headersRead : List BlockHeader}
    (full : headersRead.length = 2000) (found : Bool) :
    Fetched s (batches rest) (handed timestamp found (batches rest)) (finishes timestamp found (batches rest))
      ((missingHeadersRounds config peer.receiveHeaders rounds headersRead found).run s) := by
  induction rounds generalizing headersRead found s rest with
  | zero => exact absurd enough (Nat.not_lt_zero _)
  | succ rounds ih =>
    obtain ⟨t, ran, later, blockchain, tx, nodes⟩ := healthy.next "Error trying to read headers" fun file _ => file
    have received : (nextHeaders config peer.receiveHeaders).run s = (.ok (rest.take 2000), t) := ran
    have one : 1 ≤ (batches rest).length := by
      rw [batches]
      split_ifs <;> exact Nat.succ_pos _
    have oneList := handed_length_le timestamp found [rest.take 2000]
    rw [missingHeadersRounds, if_pos full, Proc.run_bind_ok _ received]
    rcases hand_over_run date t (rest.take 2000) found with ⟨few, _⟩ |
      ⟨empty, rfl, e, other, failed⟩ | ⟨tx', wanted, sent, accepts, handedOver⟩
    · rw [tx] at few
      exact absurd (one.trans left) (Nat.not_le.mpr (Nat.lt_of_lt_of_le few oneList))
    · obtain rfl : rest = [] := by simpa using empty
      rw [Proc.run_bind_error _ failed, batches_short (by decide)]
      refine ⟨by rw [blockchain]; rfl, ?_, nodes, ?_, ?_⟩
      · simp [handed, late, tx]
      · simp [finishes]
      · rintro _ ⟨⟩
        exact other
    · rw [Proc.run_bind_ok _ handedOver]
      by_cases long : 2000 ≤ rest.length
      · have length : (rest.take 2000).length = 2000 := List.length_take_of_le long
        rw [batches_long long, List.length_cons] at enough left
        have goesOn : HealthyPeer config peer { t with tx := tx' } (rest.drop 2000) := { later with }
        rw [List.length_singleton] at oneList
        have done := ih goesOn (Nat.lt_of_succ_lt_succ enough) (by rw [tx] at accepts; simp only; omega) length
          (found || late timestamp (rest.take 2000))
        rw [batches_long long, handed_cons, finishes_cons _ wanted]
        refine ⟨?_, ?_, done.nodes.trans nodes, ?_, done.open_⟩
        · rw [done.blockchain, blockchain, Blockchain.load_append, List.flatten_cons]
        · rw [done.sent, sent, tx, List.append_assoc]
        · simpa [length] using done.ok_iff
      · have short : rest.length < 2000 := Nat.lt_of_not_le long
        have all : rest.take 2000 = rest := List.take_of_length_le (Nat.le_of_lt short)
        rw [batches_short short, List.length_singleton] at enough
        obtain ⟨more, rfl⟩ := Nat.exists_eq_succ_of_ne_zero (Nat.ne_of_gt (Nat.lt_of_succ_lt_succ enough))
        rw [all] at wanted sent blockchain ⊢
        rw [missingHeadersRounds, if_neg (Nat.ne_of_lt short), batches_short short, finishes_cons _ wanted]
        refine ⟨?_, by rw [← tx]; exact sent, nodes, ?_, fun e failed => ?_⟩
        · rw [List.flatten_singleton]
          exact blockchain
        · simp [Nat.ne_of_lt short]
        · cases failed

omit [Crates] [Chrono] in
/-- The rounds come to their end unless they end with an empty batch, with nothing to download before it. -/
theorem finishes_batches (timestamp : UInt32) (found : Bool) (headers : List BlockHeader) :
    finishes timestamp found (batches headers) =
      (found || headers.length % 2000 ≠ 0 || (batches headers).any (late timestamp)) := by
  induction headers using batches.induct generalizing found with
  | case1 headers short =>
    rw [batches_short short, finishes, Nat.mod_eq_of_lt short]
    by_cases empty : headers = []
    · subst empty
      simp [late]
    · have some : headers.length ≠ 0 := List.length_eq_zero_iff.not.mpr empty
      simp [empty, some, Nat.ne_of_lt short]
  | case2 headers long ih =>
    have long := Nat.not_lt.mp long
    have length : (headers.take 2000).length = 2000 := List.length_take_of_le long
    have some : headers.take 2000 ≠ [] := by
      rintro empty
      rw [empty] at length
      cases length
    have same : (headers.drop 2000).length % 2000 = headers.length % 2000 := by
      rw [List.length_drop, ← Nat.mod_eq_sub_mod long]
    rw [batches_long long, finishes, if_neg some, if_pos length, ih, same, List.any_cons]
    cases found <;> cases late timestamp (headers.take 2000) <;> simp

/-- What comes behind the last header is stored, and handed over from the second batch on. -/
theorem missing_headers_run (date : getFirstBlockTimestamp config = .ok timestamp)
    (healthy : HealthyPeer config peer s rest) {rounds : Nat} (enough : (batches rest).length < rounds)
    (left : (batches rest).length ≤ s.tx.accepts) :
    Fetched s (batches rest) (handed timestamp false (batches rest).tail)
      (rest.length < 2000 || rest.length % 2000 ≠ 0 || (batches rest).tail.any (late timestamp))
      ((peer.downloadMissingHeadersFromNode config rounds).run s) := by
  obtain ⟨t, ran, later, blockchain, tx, nodes⟩ := healthy.next "Error trying to read headers" fun file _ => file
  have received : (nextHeaders config peer.receiveHeaders).run s = (.ok (rest.take 2000), t) := ran
  rw [HeadersPeer.downloadMissingHeadersFromNode, Proc.run_bind_ok _ received]
  by_cases long : 2000 ≤ rest.length
  · have length : (rest.take 2000).length = 2000 := List.length_take_of_le long
    rw [batches_long long, List.length_cons] at enough left
    have done := missing_headers_rounds_run date later (Nat.lt_of_succ_lt enough) (tx ▸ Nat.le_of_succ_le left)
      length false
    have same : (rest.drop 2000).length % 2000 = rest.length % 2000 := by
      rw [List.length_drop, ← Nat.mod_eq_sub_mod long]
    rw [batches_long long, List.tail_cons]
    refine ⟨?_, ?_, done.nodes.trans nodes, ?_, done.open_⟩
    · rw [done.blockchain, blockchain, Blockchain.load_append, List.flatten_cons]
    · rw [done.sent, tx]
    · rw [done.ok_iff, finishes_batches, same]
      simp [Nat.not_lt.mpr long]
  · have short : rest.length < 2000 := Nat.lt_of_not_le long
    have all : rest.take 2000 = rest := List.take_of_length_le (Nat.le_of_lt short)
    obtain ⟨more, rfl⟩ := Nat.exists_eq_succ_of_ne_zero (Nat.ne_of_gt (Nat.zero_lt_of_lt enough))
    rw [all] at blockchain ⊢
    rw [missingHeadersRounds, if_neg (Nat.ne_of_lt short), batches_short short]
    refine ⟨?_, ?_, nodes, ?_, fun e failed => ?_⟩
    · rw [List.flatten_singleton]
      exact blockchain
    · rw [List.tail_cons, handed, List.append_nil]
      exact congrArg HeadersSender.sent tx
    · simp [short]
    · cases failed

omit [Chrono] in
theorem initial_headers_run (healthy : HealthyPeer config peer s rest) {n : Nat}
    (roundsNeeded : n = (config.headersInDisk - s.blockchain.headers.length + 1999) / 2000)
    (long : config.headersInDisk ≤ s.blockchain.headers.length + rest.length) {rounds : Nat} (enough : n < rounds) :
    ∃ t, (peer.initialHeadersLoop config rounds).run s = (.ok (), t) ∧
      HealthyPeer config peer t (rest.drop (2000 * n)) ∧
      t.blockchain = s.blockchain.load (rest.take (2000 * n)) ∧ t.tx = s.tx ∧ t.nodes = s.nodes := by
  induction n generalizing s rest rounds with
  | zero =>
    obtain ⟨more, rfl⟩ := Nat.exists_eq_succ_of_ne_zero (Nat.ne_of_gt enough)
    have done : ¬s.Missing config := by
      rw [HeadersDownload.Missing]
      omega
    refine ⟨s, Proc.run_loop_done done more, healthy, ?_, rfl, rfl⟩
    simp
  | succ n ih =>
    obtain ⟨more, rfl⟩ := Nat.exists_eq_succ_of_ne_zero (Nat.ne_of_gt (Nat.zero_lt_of_lt enough))
    have missing : s.Missing config := by
      rw [HeadersDownload.Missing]
      omega
    obtain ⟨t, ran, later, blockchain, tx, nodes⟩ :=
      healthy.next "Error trying to read and save headers in disk" (· ++ ·)
    have received : (nextHeaders config peer.receive).run s = (.ok (rest.take 2000), t) := ran
    have length : t.blockchain.headers.length = s.blockchain.headers.length + min 2000 rest.length := by
      rw [blockchain, Blockchain.load_headers, List.length_append, List.length_take]
    have less : (rest.drop 2000).length = rest.length - 2000 := List.length_drop
    obtain ⟨t', ran', healthy', blockchain', tx', nodes'⟩ :=
      ih later (by rw [length]; omega) (by rw [length, less]; omega) (Nat.lt_of_succ_lt_succ enough)
    have total : 2000 * (n + 1) = 2000 + 2000 * n := by omega
    refine ⟨t', ?_, ?_, ?_, tx'.trans tx, nodes'.trans nodes⟩
    · rw [HeadersPeer.initialHeadersLoop, Proc.run_loop_round missing received]
      exact ran'
    · rwa [total, ← List.drop_drop]
    · rw [blockchain', blockchain, Blockchain.load_append, total, List.take_add]

/-- `downloadAndPersistHeaders`, where every connection is one to the peer. -/
def HeadersPeer.downloadAndPersistHeaders (peer : HeadersPeer) (config : HeadersConfig) (rounds : Nat) :
    DownloadingHeaders Unit := do
  Proc.modify fun s => { s with file := [] }
  let s ← Proc.get
  tryNodes (peer.initialHeadersLoop config rounds) (fun _ => none) (s.nodes.length + 1)
  returnNodeToVec

/-- `downloadMissingHeaders`. -/
def HeadersPeer.downloadMissingHeaders (peer : HeadersPeer) (config : HeadersConfig) (rounds : Nat) :
    DownloadingHeaders Unit := do
  let s ← Proc.get
  tryNodes (peer.downloadMissingHeadersFromNode config rounds) channelClosed (s.nodes.length + 1)
  returnNodeToVec

def HeadersPeer.downloadHeaders (peer : HeadersPeer) (config : HeadersConfig) (rounds : Nat) :
    DownloadingHeaders Unit := do
  peer.downloadAndPersistHeaders config rounds
  peer.downloadMissingHeaders config rounds

section OneNode

variable {node : HeadersStream}

omit [Chrono] in
theorem download_and_persist_headers_run (only : s.nodes = [node])
    (healthy : HealthyPeer config peer { s with node } rest) {n : Nat}
    (roundsNeeded : n = (config.headersInDisk - s.blockchain.headers.length + 1999) / 2000)
    (long : config.headersInDisk ≤ s.blockchain.headers.length + rest.length) {rounds : Nat} (enough : n < rounds) :
    ∃ t, (peer.downloadAndPersistHeaders config rounds).run s = (.ok (), t) ∧
      HealthyPeer config peer t (rest.drop (2000 * n)) ∧
      t.blockchain = s.blockchain.load (rest.take (2000 * n)) ∧ t.tx = s.tx ∧ t.nodes = [t.node] := by
  have connected : HealthyPeer config peer { s with nodes := [], node, file := [] } rest := { healthy with }
  obtain ⟨t, ran, later, blockchain, tx, nodes⟩ := initial_headers_run connected roundsNeeded long enough
  have cleared : { s with file := [] }.nodes = [node] := only
  obtain ⟨_, tried, ok⟩ := try_nodes_only (fun _ => none) cleared ran nodes fun _ _ => rfl
  rw [ok.mpr rfl] at tried
  refine ⟨{ t with nodes := t.nodes ++ [t.node] }, ?_, { later with }, blockchain, tx, by rw [nodes]; rfl⟩
  rw [HeadersPeer.downloadAndPersistHeaders, Proc.run_bind_ok _ (Proc.run_modify _ _),
    Proc.run_bind_ok _ (Proc.run_get _), Proc.run_bind_ok _ tried]
  rfl

theorem download_missing_headers_run (date : getFirstBlockTimestamp config = .ok timestamp)
    (only : s.nodes = [node]) (healthy : HealthyPeer config peer { s with node } rest) {rounds : Nat}
    (enough : (batches rest).length < rounds) (left : (batches rest).length ≤ s.tx.accepts) :
    let r := (peer.downloadMissingHeaders config rounds).run s
    r.2.blockchain = s.blockchain.load rest ∧
      r.2.tx.sent = s.tx.sent ++ handed timestamp false (batches rest).tail ∧
      (r.1 = .ok () ↔
        rest.length < 2000 ∨ rest.length % 2000 ≠ 0 ∨ (batches rest).tail.any (late timestamp) = true) := by
  intro r
  have connected : HealthyPeer config peer { s with nodes := [], node } rest := { healthy with }
  have done := missing_headers_run date connected enough left
  rcases ran : (peer.downloadMissingHeadersFromNode config rounds).run { s with nodes := [], node } with
    ⟨result, t⟩
  rw [ran] at done
  have goesOn (e : NodeCustomErrors) (failed : result = .error (.err e)) : channelClosed e = none :=
    Decidable.not_not.mp (done.open_ _ failed)
  obtain ⟨result', tried, ok⟩ := try_nodes_only channelClosed only ran done.nodes goesOn
  have ended : result' = .ok () ↔
      rest.length < 2000 ∨ rest.length % 2000 ≠ 0 ∨ (batches rest).tail.any (late timestamp) = true := by
    rw [ok, done.ok_iff]
    simp [or_assoc]
  have started : r = (do
      tryNodes (peer.downloadMissingHeadersFromNode config rounds) channelClosed (s.nodes.length + 1)
      returnNodeToVec : DownloadingHeaders Unit).run s := Proc.run_bind_ok _ (Proc.run_get s)
  rcases result' with e | ⟨⟩
  · rw [started, Proc.run_bind_error _ tried]
    exact ⟨done.blockchain.trans (by simp), done.sent, ended⟩
  · rw [started, Proc.run_bind_ok _ tried]
    exact ⟨done.blockchain.trans (by simp), done.sent, ended⟩

omit [Chrono] in
theorem ServesHeaders.synced {server synced : PeerState} (serves : ServesHeaders server)
    (chain : server.node.blockchain.headers = s.blockchain.headers ++ rest) (stored : s.blockchain.headers ≠ [])
    (indexed : s.blockchain.Indexed) (open_ : synced.tx.open_ = true)
    (same : synced.node.blockchain = s.blockchain.load rest) : ServesHeaders synced := by
  have headers : synced.node.blockchain.headers = server.node.blockchain.headers := by
    rw [same, Blockchain.load_headers, chain]
  refine ⟨open_, ?_, fun k later header listed => ?_, ?_, ?_, ?_⟩
  · rw [headers]
    exact serves.genesis
  · rw [headers] at listed
    have height := serves.indexed k later header listed
    rcases load_header_heights_get s.blockchain rest header.hash with ⟨kept, absent⟩ | ⟨i, last, found⟩
    · have known : s.blockchain.headers[k]? = some header := by
        rw [chain] at listed
        rcases Nat.lt_or_ge k s.blockchain.headers.length with inside | behind
        · rwa [List.getElem?_append_left inside] at listed
        · rw [List.getElem?_append_right behind] at listed
          exact absurd (List.mem_map_of_mem (List.mem_of_getElem? listed)) absent
      rw [same]
      exact kept.trans (indexed k later header known)
    · obtain ⟨atI, _⟩ := last
      rw [List.getElem?_map, Option.map_eq_some_iff] at atI
      obtain ⟨other, listed', sameHash⟩ := atI
      have storedAt : server.node.blockchain.headers[s.blockchain.headers.length + i]? = some other := by
        rw [chain, List.getElem?_append_right (Nat.le_add_right _ _), Nat.add_sub_cancel_left, listed']
      have height' := serves.indexed _ (Nat.add_pos_left (List.length_pos_iff.mpr stored) i) other storedAt
      rw [sameHash, height] at height'
      rw [same]
      exact found.trans height'.symm
  · rw [headers]
    exact serves.fits
  · rw [headers]
    exact serves.valid
  · rw [headers]
    exact serves.named

/-- The whole chain of the peer is stored, and a node that starts from it serves it as well. The download
fails only where an empty batch comes before any header that is dated late enough. -/
theorem headers_synced {server : PeerState} (serves : ServesHeaders server)
    (chain : server.node.blockchain.headers = s.blockchain.headers ++ rest) (stored : s.blockchain.headers ≠ [])
    (indexed : s.blockchain.Indexed) (only : s.nodes = [node]) (connected : 0 < node.requests)
    (idle : node.incoming = []) (long : config.headersInDisk ≤ server.node.blockchain.headers.length)
    (date : getFirstBlockTimestamp config = .ok timestamp) (left : rest.length / 2000 < s.tx.accepts)
    {rounds : Nat} (enough : rest.length / 2000 + 1 < rounds) :
    let first := 2000 * ((config.headersInDisk - s.blockchain.headers.length + 1999) / 2000)
    let lists := (batches (rest.drop first)).tail
    let r := ((HeadersPeer.running server).downloadHeaders config rounds).run s
    r.2.blockchain.headers = server.node.blockchain.headers ∧
      r.2.tx.sent = s.tx.sent ++ handed timestamp false lists ∧
      (r.1 = .ok () ↔ rest.length < first + 2000 ∨ (rest.length - first) % 2000 ≠ 0 ∨
        ∃ batch ∈ lists, late timestamp batch) ∧
      ∀ synced : PeerState, synced.tx.open_ = true → synced.node.blockchain = r.2.blockchain →
        ServesHeaders synced := by
  intro first lists r
  have healthy : HealthyPeer config (.running server) { s with node } rest :=
    serves.healthy chain stored connected idle
  have total : server.node.blockchain.headers.length = s.blockchain.headers.length + rest.length := by
    rw [chain, List.length_append]
  have enoughFirst : (config.headersInDisk - s.blockchain.headers.length + 1999) / 2000 < rounds := by omega
  obtain ⟨t, ran, later, blockchain, tx, nodes⟩ :=
    download_and_persist_headers_run only healthy rfl (total ▸ long) enoughFirst
  have behind : (rest.drop first).length = rest.length - first := List.length_drop
  have few : (batches (rest.drop first)).length = (rest.length - first) / 2000 + 1 := by
    rw [batches_length, behind]
  have enoughMissing : (batches (rest.drop first)).length < rounds := by omega
  have leftMissing : (batches (rest.drop first)).length ≤ t.tx.accepts := by rw [tx]; omega
  have ended : r = ((HeadersPeer.running server).downloadMissingHeaders config rounds).run t := by
    show ((HeadersPeer.running server).downloadHeaders config rounds).run s = _
    rw [HeadersPeer.downloadHeaders, Proc.run_bind_ok _ ran]
  obtain ⟨grown, sent, ok⟩ := download_missing_headers_run date nodes later enoughMissing leftMissing
  rw [blockchain, Blockchain.load_append, List.take_append_drop] at grown
  rw [ended]
  refine ⟨?_, ?_, ?_, fun synced open_ same => ?_⟩
  · rw [grown, Blockchain.load_headers, chain]
  · rw [sent, tx]
  · rw [ok, behind, List.any_eq_true]
    have short : rest.length - first < 2000 ↔ rest.length < first + 2000 := by omega
    rw [short]
  · exact serves.synced chain stored indexed open_ (same.trans grown)

end OneNode

end Missing

theorem Blockchain.load_indexed [Crates] {chain : Blockchain} {headers : List BlockHeader}
    (first : chain.headers.length = 1) (distinct : (headers.map BlockHeader.hash).Nodup) :
    (chain.load headers).Indexed := by
  intro k later header stored
  obtain ⟨k, rfl⟩ := Nat.exists_eq_add_of_le' later
  rw [Blockchain.load_headers, List.getElem?_append_right (by omega), first, Nat.add_sub_cancel] at stored
  have here : (headers.map BlockHeader.hash)[k]? = some header.hash := by rw [List.getElem?_map, stored]; rfl
  rcases load_header_heights_get chain headers header.hash with ⟨_, absent⟩ | ⟨i, last, found⟩
  · exact absurd (List.mem_of_getElem? here) absent
  · obtain ⟨bound, atK⟩ := List.getElem?_eq_some_iff.mp here
    obtain ⟨bound', atI⟩ := List.getElem?_eq_some_iff.mp last.1
    obtain rfl : k = i := distinct.getElem_inj_iff.mp (atK.trans atI.symm)
    rw [first, Nat.add_comm] at found
    exact found

/-- A node that has loaded these headers after the first one. -/
def PeerState.loaded [Crates] (headers : List BlockHeader) : PeerState :=
  ⟨⟨Blockchain.initial.load headers, [], false⟩, ⟨true, []⟩⟩

theorem PeerState.loaded_serves [Crates] {headers : List BlockHeader}
    (distinct : (headers.map BlockHeader.hash).Nodup) (fits : headers.length + 1 < 2 ^ 64)
    (valid : ∀ header ∈ headers, header.validate = .ok true)
    (named : ∀ header ∈ headers, header ≠ genesisBlockHeader ∧ header.hash ≠ genesisBlockHash) :
    ServesHeaders (.loaded headers) :=
  ⟨rfl, rfl, Blockchain.load_indexed rfl distinct, fits, valid, named⟩

def HeadersDownload.toSync : HeadersDownload :=
  { HeadersDownload.atGenesis with nodes := [⟨1, [], "", []⟩], tx := ⟨1, []⟩ }

theorem HeadersDownload.to_sync_indexed [Crates] : toSync.blockchain.Indexed := by
  intro k later header listed
  have bound : k < 1 := (List.getElem?_eq_some_iff.mp listed).1
  exact absurd later (Nat.not_le.mpr bound)

/-- Three headers behind the first one, two of which are to be in the file. -/
theorem headers_synced_three :
    let _ := Crates.standard
    let _ := Chrono.ofApril
    let server := PeerState.loaded [.easy 1, .easy 2, .easy 3]
    let config := { HeadersConfig.ofApril with headersInDisk := 3 }
    ∃ synced, ((HeadersPeer.running server).downloadHeaders config 3).run .toSync = (.ok (), synced) ∧
      synced.blockchain.headers = [genesisBlockHeader, .easy 1, .easy 2, .easy 3] ∧ synced.tx.sent = [] ∧
      ServesHeaders ⟨⟨synced.blockchain, [], false⟩, ⟨true, []⟩⟩ := by
  intro crates _ server config
  have serves : ServesHeaders server :=
    PeerState.loaded_serves (by decide +kernel) (by decide) (by decide +kernel) (by decide +kernel)
  have chain : server.node.blockchain.headers =
      HeadersDownload.toSync.blockchain.headers ++ [.easy 1, .easy 2, .easy 3] := rfl
  have only : HeadersDownload.toSync.nodes = [⟨1, [], "", []⟩] := rfl
  have date : getFirstBlockTimestamp config = .ok 1681084800 := by decide +kernel
  have long : config.headersInDisk ≤ server.node.blockchain.headers.length := by
    rw [chain]
    decide
  have left : [BlockHeader.easy 1, .easy 2, .easy 3].length / 2000 < HeadersDownload.toSync.tx.accepts := by decide
  have enough : [BlockHeader.easy 1, .easy 2, .easy 3].length / 2000 + 1 < 3 := by decide
  obtain ⟨headers, sent, ok, resynced⟩ := headers_synced serves chain (by decide)
    HeadersDownload.to_sync_indexed only (by decide) rfl long date left enough
  rw [batches_short (by rw [List.length_drop]; exact Nat.lt_of_le_of_lt (Nat.sub_le _ _) (by decide))] at sent
  generalize ((HeadersPeer.running server).downloadHeaders config 3).run .toSync = r at headers sent ok resynced ⊢
  obtain ⟨result, synced⟩ := r
  obtain rfl := ok.mpr (.inl (Nat.lt_add_left _ (by decide)))
  exact ⟨synced, rfl, headers, sent, resynced ⟨⟨synced.blockchain, [], false⟩, ⟨true, []⟩⟩ rfl rfl⟩

end BitcoinNode
