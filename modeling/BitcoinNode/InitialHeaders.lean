import BitcoinNode.ConfigFile
import BitcoinNode.GetheadersReplies
import BitcoinNode.HeadersFile
import BitcoinNode.Lib.Loops

/-! The download of the first headers from a peer that answers. The loop goes on until as many headers as
configured are stored, whatever comes; the peer has as many as its chain has. -/
namespace BitcoinNode

/-- A peer that stays connected: the payload of its answer to each request. -/
structure HeadersPeer where
  answer : GetHeadersMessage → List UInt8

/-- The last request is answered, and another one is taken. -/
def HeadersPeer.deliver (peer : HeadersPeer) : DownloadingHeaders Unit :=
  Proc.modify fun s =>
    match s.node.written.getLast? with
    | some request => { s with node := { s.node with
        requests := s.node.requests + 1, incoming := s.node.incoming ++ [peer.answer request] } }
    | none => s

def HeadersPeer.receive (peer : HeadersPeer) : DownloadingHeaders (List BlockHeader) := do
  peer.deliver
  receiveAndPersistInitialHeadersFromNode

theorem HeadersPeer.receive_run {peer : HeadersPeer} {s : HeadersDownload} {written : List GetHeadersMessage}
    {request : GetHeadersMessage} {headersRead : List BlockHeader} {stop : Nat} (idle : s.node.incoming = [])
    (last : s.node.written = written ++ [request])
    (decoded : HeadersMessage.unmarshalling (peer.answer request) 0 = .ok (headersRead, stop)) :
    peer.receive.run s = (.ok headersRead, { s with
      node := { s.node with requests := s.node.requests + 1 }, file := s.file ++ peer.answer request }) := by
  have receives := or_download_error_receives "Error trying to read and save headers in disk" (· ++ ·)
  have delivered : peer.deliver.run s = (.ok (), { s with node := { s.node with
      requests := s.node.requests + 1, incoming := [peer.answer request] } }) := by
    rw [deliver, Proc.run_modify, last, List.getLast?_concat, idle]
    rfl
  rw [receive, Proc.run_bind_ok _ delivered]
  apply (receives.offer _ _ [] _ _ rfl decoded).trans
  rw [← idle]

def HeadersDownload.Missing (config : HeadersConfig) (s : HeadersDownload) : Prop :=
  s.blockchain.headers.length < config.headersInDisk

instance (config : HeadersConfig) : DecidablePred (HeadersDownload.Missing config) :=
  fun s => inferInstanceAs (Decidable (s.blockchain.headers.length < config.headersInDisk))

section InitialHeaders

variable [Crates]

/-- `downloadAndPersistInitialHeadersFromNode`, on a connection to the peer. -/
def HeadersPeer.initialHeadersLoop (peer : HeadersPeer) (config : HeadersConfig) (rounds : Nat) :
    DownloadingHeaders Unit :=
  Proc.loop (HeadersDownload.Missing config) (nextHeaders config peer.receive) rounds

def HeadersPeer.Terminates (peer : HeadersPeer) (config : HeadersConfig) (s : HeadersDownload) : Prop :=
  ∃ rounds, ((peer.initialHeadersLoop config rounds).run s).1 ≠ Outcome.abort

theorem initial_headers_loop_eq (config : HeadersConfig) (rounds : Nat) : initialHeadersLoop config rounds =
    Proc.loop (HeadersDownload.Missing config) (nextHeaders config receiveAndPersistInitialHeadersFromNode)
      rounds := by
  induction rounds with
  | zero => rfl
  | succ rounds ih =>
    rw [initialHeadersLoop, ih]
    rfl

/-- The peer answers with the next headers of a valid chain. `rest` is what is behind the last stored one. -/
structure HealthyPeer (config : HeadersConfig) (peer : HeadersPeer) (s : HeadersDownload)
    (rest : List BlockHeader) : Prop where
  connected : 0 < s.node.requests
  idle : s.node.incoming = []
  stored : s.blockchain.headers ≠ []
  valid : ∀ header ∈ rest, header.validate = .ok true
  answers : ∀ front back hash, front ++ back = rest →
    getLastHashHeaderDownloaded (s.blockchain.headers ++ front) = .ok hash → ∃ stop,
      HeadersMessage.unmarshalling (peer.answer (.buildGetheadersMessage config [hash])) 0 =
        .ok (back.take 2000, stop)

theorem HealthyPeer.round {config : HeadersConfig} {peer : HeadersPeer} {s : HeadersDownload}
    {rest : List BlockHeader} (healthy : HealthyPeer config peer s rest) : ∃ s',
      (nextHeaders config peer.receive).run s = (.ok (rest.take 2000), s') ∧
      HealthyPeer config peer s' (rest.drop 2000) ∧
      s'.blockchain.headers = s.blockchain.headers ++ rest.take 2000 := by
  obtain ⟨hash, last⟩ := last_hash_of_stored healthy.stored
  obtain ⟨requests, left⟩ := Nat.exists_eq_succ_of_ne_zero (Nat.ne_of_gt healthy.connected)
  obtain ⟨stop, decoded⟩ := healthy.answers [] rest hash rfl (by rw [List.append_nil, last])
  have received := @HeadersPeer.receive_run peer { s with node := { s.node with
      requests, written := s.node.written ++ [.buildGetheadersMessage config [hash]] } }
    _ _ _ _ healthy.idle rfl decoded
  have valid : validateHeaders (rest.take 2000) = .ok () :=
    validate_headers_eq_ok.mpr fun header member => healthy.valid header (List.mem_of_mem_take member)
  refine ⟨{ s with
      node := { s.node with
        requests := requests + 1, written := s.node.written ++ [.buildGetheadersMessage config [hash]] }
      blockchain := s.blockchain.load (rest.take 2000)
      file := s.file ++ peer.answer (.buildGetheadersMessage config [hash]) }, ?_, ?_, rfl⟩
  · rw [nextHeaders, Proc.run_bind_ok _ (request_headers_ok config last left), Proc.run_bind_ok _ received]
    simp [Proc.run_bind, storeHeadersInLocalHeadersVec, valid, Blockchain.load, loadHeaderHeights]
  · constructor
    case connected => exact Nat.succ_pos _
    case idle => exact healthy.idle
    case stored => exact List.append_ne_nil_of_left_ne_nil healthy.stored _
    case valid => exact fun header member => healthy.valid header (List.mem_of_mem_drop member)
    case answers =>
      intro front back hash split last
      refine healthy.answers (rest.take 2000 ++ front) back hash ?_ ?_
      · rw [List.append_assoc, split, List.take_append_drop]
      · rwa [← List.append_assoc]

/-- What is stored since `s` is a front of `rest`, and the peer goes on behind it. -/
def Behind (config : HeadersConfig) (peer : HeadersPeer) (s : HeadersDownload) (rest : List BlockHeader)
    (t : HeadersDownload) : Prop :=
  ∃ front back, front ++ back = rest ∧ t.blockchain.headers = s.blockchain.headers ++ front ∧
    HealthyPeer config peer t back

section Rounds

variable {config : HeadersConfig} {peer : HeadersPeer} {s : HeadersDownload} {rest : List BlockHeader}

theorem HealthyPeer.behind (healthy : HealthyPeer config peer s rest) : Behind config peer s rest s :=
  ⟨[], rest, rfl, (List.append_nil _).symm, healthy⟩

/-- A round keeps it, and stores something unless everything is stored. -/
theorem Behind.round {t : HeadersDownload} (behind : Behind config peer s rest t) : ∃ headersRead t',
    (nextHeaders config peer.receive).run t = (.ok headersRead, t') ∧ Behind config peer s rest t' ∧
      (t.blockchain.headers.length < s.blockchain.headers.length + rest.length →
        t.blockchain.headers.length < t'.blockchain.headers.length) := by
  obtain ⟨front, back, rfl, headers, healthy⟩ := behind
  obtain ⟨t', ran, kept, stored⟩ := healthy.round
  refine ⟨_, t', ran, ⟨front ++ back.take 2000, back.drop 2000, ?_, ?_, kept⟩, fun missing => ?_⟩
  · rw [List.append_assoc, List.take_append_drop]
  · rw [stored, headers, List.append_assoc]
  · rw [stored]
    simp only [headers, List.length_append, List.length_take] at missing ⊢
    omega

theorem Behind.length_le {t : HeadersDownload} (behind : Behind config peer s rest t) :
    t.blockchain.headers.length ≤ s.blockchain.headers.length + rest.length := by
  obtain ⟨front, back, rfl, headers, _⟩ := behind
  rw [headers, List.length_append, List.length_append]
  omega

/-- Where the chain reaches as far as configured, the loop ends, and what it stored is the front of the chain. -/
theorem initial_headers_end (healthy : HealthyPeer config peer s rest)
    (enough : config.headersInDisk ≤ s.blockchain.headers.length + rest.length) :
    ∃ rounds s', (peer.initialHeadersLoop config rounds).run s = (.ok (), s') ∧ Behind config peer s rest s' ∧
      ¬s'.Missing config := by
  refine Proc.loop_ends (fun t => config.headersInDisk - t.blockchain.headers.length)
    (fun t behind missing => ?_) healthy.behind
  obtain ⟨headersRead, t', ran, kept, more⟩ := behind.round
  -- While headers are missing the peer has more of them, so the reply is not empty.
  have longer := more (Nat.lt_of_lt_of_le missing enough)
  rw [HeadersDownload.Missing] at missing
  exact ⟨headersRead, t', ran, kept, Nat.sub_lt_sub_left missing longer⟩

theorem initial_headers_endless (healthy : HealthyPeer config peer s rest)
    (short : s.blockchain.headers.length + rest.length < config.headersInDisk) (rounds : Nat) :
    ((peer.initialHeadersLoop config rounds).run s).1 = Outcome.abort := by
  refine Proc.loop_endless (fun t behind => ?_) healthy.behind rounds
  obtain ⟨headersRead, t', ran, kept, _⟩ := behind.round
  exact ⟨Nat.lt_of_le_of_lt behind.length_le short, headersRead, t', ran, kept⟩

/-- The loop ends exactly when the chain of the peer is as long as the configuration says. -/
theorem initial_headers_terminate_iff (healthy : HealthyPeer config peer s rest) : peer.Terminates config s ↔
    config.headersInDisk ≤ s.blockchain.headers.length + rest.length := by
  constructor
  · rintro ⟨rounds, ended⟩
    by_contra short
    exact ended (initial_headers_endless healthy (Nat.lt_of_not_le short) rounds)
  · intro enough
    obtain ⟨rounds, s', returned, _⟩ := initial_headers_end healthy enough
    refine ⟨rounds, fun aborted => ?_⟩
    rw [returned] at aborted
    cases aborted

end Rounds

/-- By what a header is asked for. -/
def BlockHeader.locatorHash (header : BlockHeader) : Hash :=
  if header = genesisBlockHeader then genesisBlockHash else header.hash

def headersBehind (chain : List BlockHeader) (hash : Option Hash) : List BlockHeader :=
  (chain.dropWhile fun header => decide (some header.locatorHash ≠ hash)).tail

def HeadersPeer.serving (chain : List BlockHeader) : HeadersPeer where
  answer request :=
    headersMessagePayload ((headersBehind chain request.payload.locatorHashes.head?).take 2000)

theorem headers_behind_eq {before back : List BlockHeader} {header : BlockHeader}
    (distinct : ((before ++ header :: back).map BlockHeader.locatorHash).Nodup) :
    headersBehind (before ++ header :: back) (some header.locatorHash) = back := by
  rw [List.map_append, List.map_cons] at distinct
  obtain ⟨_, _, apart⟩ := List.nodup_append.mp distinct
  rw [headersBehind, List.dropWhile_append_of_pos, List.dropWhile_cons_of_neg (by simp), List.tail_cons]
  intro other member
  refine decide_eq_true fun same => ?_
  exact apart _ (List.mem_map_of_mem member) _ List.mem_cons_self (Option.some.inj same)

theorem last_hash_eq_ok {headers : List BlockHeader} {hash : Hash}
    (last : getLastHashHeaderDownloaded headers = .ok hash) :
    ∃ before header, headers = before ++ [header] ∧ header.locatorHash = hash := by
  rcases atEnd : headers.getLast? with _ | header
  · rw [getLastHashHeaderDownloaded, atEnd] at last
    cases last
  · refine ⟨headers.dropLast, header, (List.dropLast_append_getLast? header atEnd).symm, ?_⟩
    rw [getLastHashHeaderDownloaded, atEnd] at last
    simp only at last
    rw [BlockHeader.locatorHash]
    split_ifs at last ⊢ <;> exact Except.ok.inj last

theorem HeadersPeer.serving_healthy {config : HeadersConfig} {s : HeadersDownload} {rest : List BlockHeader}
    (connected : 0 < s.node.requests) (idle : s.node.incoming = []) (stored : s.blockchain.headers ≠ [])
    (valid : ∀ header ∈ rest, header.validate = .ok true)
    (distinct : ((s.blockchain.headers ++ rest).map BlockHeader.locatorHash).Nodup) :
    HealthyPeer config (.serving (s.blockchain.headers ++ rest)) s rest := by
  refine ⟨connected, idle, stored, valid, fun front back hash split last => ?_⟩
  obtain ⟨before, header, known, rfl⟩ := last_hash_eq_ok last
  have chain : s.blockchain.headers ++ rest = before ++ header :: back := by
    rw [← split, ← List.append_assoc, known, List.append_assoc, List.singleton_append]
  rw [chain] at distinct
  have payload : (HeadersPeer.serving (before ++ header :: back)).answer
      (.buildGetheadersMessage config [header.locatorHash]) = headersMessagePayload (back.take 2000) :=
    congrArg (fun found : List BlockHeader => headersMessagePayload (found.take 2000)) (headers_behind_eq distinct)
  rw [chain, payload]
  exact HeadersMessage.unmarshalling_payload (by rw [List.length_take]; omega)

end InitialHeaders

/-- The header behind the genesis header, in a chain of two. -/
def BlockHeader.second [Crates] : BlockHeader :=
  { BlockHeader.easy 1 with previousBlockHeaderHash := genesisBlockHeader.hash }

def HeadersDownload.atGenesis : HeadersDownload := ⟨[], ⟨1, [], "", []⟩, .initial, ⟨0, []⟩, []⟩

theorem HeadersDownload.at_genesis_healthy (config : HeadersConfig) :
    let _ := Crates.standard
    HealthyPeer config (.serving [genesisBlockHeader, .second]) .atGenesis [.second] := by
  intro _
  refine HeadersPeer.serving_healthy (s := .atGenesis) (by decide) rfl (by decide) ?_ ?_
  · rw [List.forall_mem_singleton]
    decide +kernel
  · decide +kernel

/-- With the settings of `nodo.conf` 2300000 headers are wanted, and the chain of the peer has two. -/
theorem initial_headers_endless_nodo_conf :
    let _ := Crates.standard
    let peer : HeadersPeer := .serving [genesisBlockHeader, .second]
    ∃ config, Settings.Config.fromReader (Settings.fileOf Settings.nodoConf) = .ok config ∧
      HealthyPeer config.headers peer .atGenesis [.second] ∧ ¬peer.Terminates config.headers .atGenesis := by
  intro _ peer
  obtain ⟨config, read, settings, _⟩ := Settings.from_reader_nodo_conf
  have healthy : HealthyPeer config.headers peer .atGenesis [.second] :=
    HeadersDownload.at_genesis_healthy config.headers
  have short : HeadersDownload.atGenesis.blockchain.headers.length + [BlockHeader.second].length <
      config.headers.headersInDisk := by
    rw [settings]
    decide
  refine ⟨config, read, healthy, fun terminates => ?_⟩
  obtain ⟨rounds, ended⟩ := terminates
  exact ended (initial_headers_endless healthy short rounds)

/-- Two are wanted. -/
theorem initial_headers_terminate_two :
    let _ := Crates.standard
    let config : HeadersConfig := ⟨70015, 2, "", ""⟩
    let peer : HeadersPeer := .serving [genesisBlockHeader, .second]
    peer.Terminates config .atGenesis ↔ 2 ≤ 1 + [BlockHeader.second].length := by
  intro _ config peer
  exact initial_headers_terminate_iff (HeadersDownload.at_genesis_healthy config)

end BitcoinNode
