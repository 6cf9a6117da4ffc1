import BitcoinNode.HeadersDownload
import BitcoinNode.HeightIndex

/-! What the download of the headers hands over to the download of the blocks. The first batch
that a node sends is stored and never handed over, whatever its dates. -/
namespace BitcoinNode

/-- The last header is dated late enough. -/
def late (timestamp : UInt32) (batch : List BlockHeader) : Bool :=
  batch.getLast?.any (timestamp ≤ ·.time)

/-- The lists that are sent for batches that come after the first one of a node. -/
def handed (timestamp : UInt32) : (found : Bool) → List (List BlockHeader) → List (List BlockHeader)
  | _, [] => []
  | true, batch :: rest => batch :: handed timestamp true rest
  | false, batch :: rest =>
    if late timestamp batch then batch.dropWhile (·.time < timestamp) :: handed timestamp true rest
    else handed timestamp false rest

/-- A batch that is not full is the last one. -/
def taken : List (List BlockHeader) → List (List BlockHeader)
  | [] => []
  | batch :: rest => if batch.length = 2000 then batch :: taken rest else [batch]

/-- These batches end the download: one of them is not full, and if it is empty there was
something to download before it. -/
def finishes (timestamp : UInt32) : (found : Bool) → List (List BlockHeader) → Bool
  | _, [] => false
  | found, batch :: rest =>
    if batch = [] then found
    else if batch.length = 2000 then finishes timestamp (found || late timestamp batch) rest
    else true

theorem taken_cons (batch : List BlockHeader) (rest : List (List BlockHeader)) :
    taken (batch :: rest) = batch :: if batch.length = 2000 then taken rest else [] := by
  rw [taken]
  split_ifs <;> rfl

theorem handed_cons (timestamp : UInt32) (found : Bool) (batch : List BlockHeader)
    (rest : List (List BlockHeader)) : handed timestamp found (batch :: rest) =
      handed timestamp found [batch] ++ handed timestamp (found || late timestamp batch) rest := by
  cases found with
  | true => rfl
  | false => cases isLate : late timestamp batch <;> simp [handed, isLate]

theorem handed_length_le (timestamp : UInt32) (found : Bool) (batches : List (List BlockHeader)) :
    (handed timestamp found batches).length ≤ batches.length := by
  induction batches generalizing found with
  | nil => exact Nat.le_refl 0
  | cons batch rest ih =>
    cases found with
    | true => exact Nat.succ_le_succ (ih true)
    | false =>
      rw [handed]
      split_ifs
      · exact Nat.succ_le_succ (ih true)
      · exact Nat.le_succ_of_le (ih false)

theorem finishes_cons {timestamp : UInt32} {found : Bool} {batch : List BlockHeader}
    (rest : List (List BlockHeader)) (wanted : batch = [] → found = true) :
    finishes timestamp found (batch :: rest) =
      (batch.length ≠ 2000 || finishes timestamp (found || late timestamp batch) rest) := by
  rw [finishes]
  split_ifs with empty full
  · simp [empty, wanted empty]
  · simp [full]
  · simp [full]

/-- In time order, what comes after the first late enough header is what is dated late enough. -/
theorem dropWhile_eq_filter {timestamp : UInt32} {headers : List BlockHeader}
    (sorted : headers.Pairwise (·.time ≤ ·.time)) :
    headers.dropWhile (·.time < timestamp) = headers.filter (timestamp ≤ ·.time) := by
  induction headers with
  | nil => rfl
  | cons header rest ih =>
    obtain ⟨first, sorted⟩ := List.pairwise_cons.mp sorted
    by_cases early : header.time < timestamp
    · rw [List.dropWhile_cons_of_pos (by simpa using early), ih sorted,
        List.filter_cons_of_neg (by simpa using early)]
    · rw [List.dropWhile_cons_of_neg (by simpa using early), List.filter_eq_self.mpr]
      intro header' member
      rcases List.mem_cons.mp member with rfl | later
      · simpa using early
      · simpa using UInt32.le_trans (UInt32.not_lt.mp early) (first header' later)

theorem sorted_le_last {headers : List BlockHeader} {header lastHeader : BlockHeader}
    (sorted : headers.Pairwise (·.time ≤ ·.time)) (last : headers.getLast? = some lastHeader)
    (member : header ∈ headers) : header.time ≤ lastHeader.time := by
  rw [← List.dropLast_append_getLast? lastHeader last] at sorted member
  rcases List.mem_append.mp member with before | here
  · exact (List.pairwise_append.mp sorted).2.2 header before lastHeader (by simp)
  · obtain rfl := List.mem_singleton.mp here
    exact UInt32.le_refl _

/-- In time order, exactly the headers of the later batches that are dated late enough are sent. -/
theorem handed_flatten {timestamp : UInt32} {batches : List (List BlockHeader)}
    (sorted : batches.flatten.Pairwise (·.time ≤ ·.time)) :
    (handed timestamp true batches).flatten = batches.flatten ∧
      (handed timestamp false batches).flatten = batches.flatten.filter (timestamp ≤ ·.time) := by
  induction batches with
  | nil => exact ⟨rfl, rfl⟩
  | cons batch rest ih =>
    rw [List.flatten_cons, List.pairwise_append] at sorted
    obtain ⟨own, others, across⟩ := sorted
    obtain ⟨all, some⟩ := ih others
    refine ⟨by rw [handed, List.flatten_cons, all, List.flatten_cons], ?_⟩
    rw [handed, List.flatten_cons, List.filter_append]
    rcases last : batch.getLast? with _ | lastHeader
    · obtain rfl : batch = [] := List.getLast?_eq_none_iff.mp last
      simpa [late] using some
    · have member := List.mem_of_getLast? last
      by_cases isLate : timestamp ≤ lastHeader.time
      · have kept : rest.flatten.filter (timestamp ≤ ·.time) = rest.flatten :=
          List.filter_eq_self.mpr fun header later => by
            simpa using UInt32.le_trans isLate (across lastHeader member header later)
        rw [if_pos (by simpa [late, last] using isLate), List.flatten_cons, all, dropWhile_eq_filter own,
          kept]
      · have dropped : batch.filter (timestamp ≤ ·.time) = [] :=
          List.filter_eq_nil_iff.mpr fun header inside => by
            have bound := sorted_le_last own last inside
            simpa using UInt32.lt_of_le_of_lt bound (UInt32.not_le.mp isLate)
        rw [if_neg (by simpa [late, last] using isLate), some, dropped, List.nil_append]

theorem flatten_flatMap {α β : Type} (xs : List α) (f : α → List (List β)) :
    (xs.flatMap f).flatten = xs.flatMap fun x => (f x).flatten := by
  rw [List.flatten_eq_flatMap, List.flatMap_assoc]
  simp only [← List.flatten_eq_flatMap]

theorem flatMap_append_eq_iff {α β : Type} {xs : List α} {f g : α → List β} :
    xs.flatMap g = xs.flatMap (fun x => f x ++ g x) ↔ ∀ x ∈ xs, f x = [] := by
  constructor
  · intro same
    have length : (xs.flatMap fun x => f x ++ g x).length =
        (xs.flatMap f).length + (xs.flatMap g).length := by
      clear same
      induction xs with
      | nil => rfl
      | cons x xs ih =>
        simp only [List.flatMap_cons, List.length_append] at ih ⊢
        omega
    rw [← same] at length
    have empty : xs.flatMap f = [] := List.eq_nil_of_length_eq_zero (by omega)
    exact List.flatMap_eq_nil_iff.mp empty
  · intro empty
    exact List.flatMap_congr fun x member => by rw [empty x member, List.nil_append]

section Handed

variable [Chrono] {config : HeadersConfig} {timestamp : UInt32}

theorem search_first_header_eq (date : getFirstBlockTimestamp config = .ok timestamp)
    (headers : List BlockHeader) : searchFirstHeaderBlockToDownload config headers false =
      .ok (headers.dropWhile (·.time < timestamp), headers.any (timestamp ≤ ·.time)) := by
  rw [searchFirstHeaderBlockToDownload, date, Outcome.bind_ok, Outcome.pure_eq]
  congr 1
  suffices step : ∀ first found, headers.foldl (fun read header =>
      let found := read.2 || timestamp ≤ header.time
      (if found then read.1 ++ [header] else read.1, found)) (first, found) =
        (first ++ if found then headers else headers.dropWhile (·.time < timestamp),
          found || headers.any (timestamp ≤ ·.time)) from step [] false
  induction headers with
  | nil => simp
  | cons header rest ih =>
    intro first found
    rw [List.foldl_cons, ih]
    cases found with
    | true => simp
    | false =>
      by_cases firstBlock : timestamp ≤ header.time
      · simp [firstBlock]
      · simp [firstBlock, UInt32.not_le.mp firstBlock]

omit [Chrono] in
theorem download_blocks_run (s : HeadersDownload) (headersRead : List BlockHeader) :
    (s.tx.accepts = 0 ∧ ∃ e, ChannelClosed e ∧ (downloadBlocksInOtherThread headersRead).run s = (.error e, s)) ∨
      ∃ tx, tx.sent = s.tx.sent ++ [headersRead] ∧ s.tx.accepts = tx.accepts + 1 ∧
        (downloadBlocksInOtherThread headersRead).run s = (.ok (), { s with tx }) := by
  rcases open_ : s.tx.accepts with _ | accepts
  · refine .inl ⟨rfl, .err (.ThreadChannelError "sending on a closed channel"), ?_, ?_⟩
    · simp [ChannelClosed, channelClosed]
    · simp [downloadBlocksInOtherThread, Proc.run_bind, open_, Outcome.fail]
  · refine .inr ⟨⟨accepts, s.tx.sent ++ [headersRead]⟩, rfl, rfl, ?_⟩
    simp [downloadBlocksInOtherThread, Proc.run_bind, open_]

/-- The channel is closed only where its receiver takes no more lists. -/
theorem hand_over_run (date : getFirstBlockTimestamp config = .ok timestamp) (s : HeadersDownload)
    (batch : List BlockHeader) (found : Bool) :
    (s.tx.accepts < (handed timestamp found [batch]).length ∧
        ∃ e, ChannelClosed e ∧ (handOver config batch found).run s = (.error e, s)) ∨
      (batch = [] ∧ found = false ∧
        ∃ e, ¬ChannelClosed e ∧ (handOver config batch found).run s = (.error e, s)) ∨
      ∃ tx, (batch = [] → found = true) ∧ tx.sent = s.tx.sent ++ handed timestamp found [batch] ∧
        s.tx.accepts = tx.accepts + (handed timestamp found [batch]).length ∧
        (handOver config batch found).run s = (.ok (found || late timestamp batch), { s with tx }) := by
  cases found with
  | true =>
    rcases download_blocks_run s batch with ⟨full, e, closed, failed⟩ | ⟨tx, sent, accepts, ran⟩
    · exact .inl ⟨by simp [handed, full], e, closed, Proc.run_bind_error _ failed⟩
    · exact .inr (.inr ⟨tx, fun _ => rfl, by simpa [handed] using sent, by simpa [handed] using accepts,
        Proc.run_bind_ok _ ran⟩)
  | false =>
    rcases last : batch.getLast? with _ | lastHeader
    · obtain rfl : batch = [] := List.getLast?_eq_none_iff.mp last
      refine .inr (.inl ⟨rfl, rfl, .err (.OtherError "Can not get last header"), ?_, ?_⟩)
      · simp [ChannelClosed, channelClosed]
      · simp [handOver, firstBlockToDownloadIsInHeaders, Proc.run_bind, date, Outcome.fail]
    have nonempty : batch ≠ [] := by
      rintro rfl
      simp at last
    have checked : firstBlockToDownloadIsInHeaders config batch = .ok (late timestamp batch) := by
      simp [firstBlockToDownloadIsInHeaders, date, last, late]
    rcases isLate : late timestamp batch with _ | _
    · refine .inr (.inr ⟨s.tx, fun empty => absurd empty nonempty, by simp [handed, isLate],
        by simp [handed, isLate], ?_⟩)
      simp [handOver, Proc.run_bind, checked, isLate]
    · have firstBlock : batch.any (timestamp ≤ ·.time) = true := by
        rw [late, last, Option.any_some] at isLate
        exact List.any_eq_true.mpr ⟨lastHeader, List.mem_of_getLast? last, isLate⟩
      have searched := search_first_header_eq date batch
      rw [firstBlock] at searched
      rcases download_blocks_run s (batch.dropWhile (·.time < timestamp)) with
        ⟨full, e, closed, failed⟩ | ⟨tx, sent, accepts, ran⟩
      · refine .inl ⟨by simp [handed, isLate, full], e, closed, ?_⟩
        simp [handOver, downloadFirstBlocksInOtherThread, Proc.run_bind, checked, isLate, searched,
          failed]
      · refine .inr (.inr ⟨tx, fun empty => absurd empty nonempty, by simp [handed, isLate, sent],
          by simp [handed, isLate, accepts], ?_⟩)
        simp [handOver, downloadFirstBlocksInOtherThread, Proc.run_bind, checked, isLate, searched,
          ran]

end Handed

section HandOver

variable [Crates]

def HeadersStream.served (node : HeadersStream) : List (List BlockHeader) :=
  (node.offers.map Offer.headersRead).takeWhile fun batch => validateHeaders batch = .ok ()

/-- The node with this connection is the last one that is tried. -/
def HeadersStream.finishes (timestamp : UInt32) (node : HeadersStream) : Bool :=
  match node.served with
  | [] => false
  | first :: rest => first.length ≠ 2000 || BitcoinNode.finishes timestamp false rest

/-- The nodes that are tried, out of those that can be. -/
def tried (timestamp : UInt32) : List HeadersStream → List HeadersStream
  | [] => []
  | node :: rest => if node.finishes timestamp then [node] else node :: tried timestamp rest

theorem served_nil {node : HeadersStream} (nothing : node.offers = []) : node.served = [] := by
  simp [HeadersStream.served, nothing]

theorem served_valid {node : HeadersStream} {offer : Offer} {rest : List Offer}
    (first : node.offers = offer :: rest) (valid : validateHeaders offer.headersRead = .ok ()) :
    node.served = offer.headersRead ::
      (rest.map Offer.headersRead).takeWhile fun batch => validateHeaders batch = .ok () := by
  simp [HeadersStream.served, first, valid]

theorem served_invalid {node : HeadersStream} {offer : Offer} {rest : List Offer}
    (first : node.offers = offer :: rest) (invalid : validateHeaders offer.headersRead ≠ .ok ()) :
    node.served = [] := by
  simp [HeadersStream.served, first, invalid]

theorem next_headers_served (config : HeadersConfig) {s : HeadersDownload}
    (stored : s.blockchain.headers ≠ []) :
    (s.node.served = [] ∧ ∃ e t, (nextHeaders config receiveHeadersFromNode).run s = (.error e, t) ∧
        ¬ChannelClosed e ∧ t.blockchain.headers = s.blockchain.headers ∧ t.tx = s.tx ∧ t.nodes = s.nodes) ∨
      ∃ batch rest t, s.node.served = batch :: rest ∧ t.node.served = rest ∧
        (nextHeaders config receiveHeadersFromNode).run s = (.ok batch, t) ∧
        t.node.incoming.length < s.node.incoming.length ∧
        t.blockchain.headers = s.blockchain.headers ++ batch ∧ t.tx = s.tx ∧ t.nodes = s.nodes := by
  have receives := or_download_error_receives "Error trying to read headers" fun file _ => file
  rcases available : s.node.offers with _ | ⟨offer, others⟩
  · obtain ⟨e, node, other, ran⟩ := next_headers_nothing config receives stored available
    exact .inl ⟨served_nil available, e, _, ran, other, rfl, rfl, rfl⟩
  · obtain ⟨node, rest, shorter, ran⟩ := next_headers_offer config receives stored available
    rcases valid : validateHeaders offer.headersRead with e | _ <;> rw [valid] at ran
    · exact .inl ⟨served_invalid available (by simp [valid]), e, _, ran, validate_headers_open valid,
        by simp [Offer.apply, valid], rfl, rfl⟩
    · exact .inr ⟨offer.headersRead, _, _, served_valid available valid, by rw [← rest]; rfl, ran,
        shorter, by simp [Offer.apply, valid], rfl, rfl⟩

variable [Chrono] {config : HeadersConfig} {timestamp : UInt32}

/-- What the rounds of a node have done when they are over, unless the channel was closed. -/
structure RoundsDone (s : HeadersDownload) (batches lists : List (List BlockHeader)) (finished : Bool)
    (r : Outcome NodeCustomErrors Unit × HeadersDownload) : Prop where
  headers : r.2.blockchain.headers = s.blockchain.headers ++ batches.flatten
  sent : r.2.tx.sent = s.tx.sent ++ lists
  nodes : r.2.nodes = s.nodes
  ok_iff : r.1 = .ok () ↔ finished = true
  open_ : ∀ e, r.1 = .error e → ¬ChannelClosed e

/-- The channel was closed, with fewer lists taken than there are to send, or the rounds are done. -/
def ClosedOr (s : HeadersDownload) (lists : List (List BlockHeader))
    (r : Outcome NodeCustomErrors Unit × HeadersDownload) (done : Prop) : Prop :=
  (s.tx.accepts < lists.length ∧ ∃ e, r.1 = .error e ∧ ChannelClosed e) ∨ done

theorem missing_headers_loop_run (date : getFirstBlockTimestamp config = .ok timestamp)
    (rounds : Nat) (headersRead : List BlockHeader) (found : Bool) (s : HeadersDownload)
    (stored : s.blockchain.headers ≠ []) (enough : s.node.incoming.length < rounds) :
    let r := (missingHeadersLoop config rounds headersRead found).run s
    let batches := if headersRead.length = 2000 then taken s.node.served else []
    let lists := handed timestamp found batches
    ClosedOr s lists r (RoundsDone s batches lists
      (headersRead.length ≠ 2000 || finishes timestamp found s.node.served) r) := by
  induction rounds generalizing headersRead found s with
  | zero => omega
  | succ rounds ih =>
    rw [missingHeadersLoop]
    by_cases full : headersRead.length = 2000
    · simp only [full, if_true]
      rcases next_headers_served config stored with
        ⟨nothing, e, t, ran, other, headers, tx, nodes⟩ |
        ⟨batch, rest, t, available, others, ran, shorter, headers, tx, nodes⟩
      · refine .inr ⟨?_, ?_, ?_, ?_, ?_⟩ <;> rw [Proc.run_bind_error _ ran]
        · simp [nothing, taken, headers]
        · simp [nothing, taken, handed, tx]
        · exact nodes
        · simp [nothing, finishes]
        · rintro _ ⟨⟩
          exact other
      · rcases hand_over_run date t batch found with ⟨few, e, closed, failed⟩ |
          ⟨rfl, rfl, e, other, failed⟩ | ⟨tx', wanted, sent, accepts, ran'⟩
        · refine .inl ⟨?_, e, by rw [Proc.run_bind_ok _ ran, Proc.run_bind_error _ failed], closed⟩
          rw [available, taken_cons, handed_cons, List.length_append, ← tx]
          exact Nat.lt_add_right _ few
        · refine .inr ⟨?_, ?_, ?_, ?_, ?_⟩ <;>
            rw [Proc.run_bind_ok _ ran, Proc.run_bind_error _ failed]
          · simp [available, taken, headers]
          · simp [available, taken, handed, late, tx]
          · exact nodes
          · simp [available, finishes]
          · rintro _ ⟨⟩
            exact other
        · rw [Proc.run_bind_ok _ ran, Proc.run_bind_ok _ ran', available, taken_cons, handed_cons,
            finishes_cons rest wanted]
          rcases ih batch (found || late timestamp batch) { t with tx := tx' } (by simp [headers, stored])
            (by simp only; omega) with ⟨few, closed⟩ | done
          · refine .inl ⟨?_, closed⟩
            rw [others] at few
            rw [List.length_append, ← tx, accepts, Nat.add_comm]
            exact Nat.add_lt_add_left few _
          · rw [others] at done
            refine .inr ⟨?_, ?_, ?_, ?_, done.open_⟩
            · rw [done.headers, headers, List.flatten_cons, List.append_assoc]
            · rw [done.sent, sent, tx, List.append_assoc]
            · exact done.nodes.trans nodes
            · simpa using done.ok_iff
    · refine .inr ⟨?_, ?_, ?_, ?_, ?_⟩ <;> simp [full, handed]

theorem missing_headers_from_node_run (date : getFirstBlockTimestamp config = .ok timestamp)
    {s : HeadersDownload} (stored : s.blockchain.headers ≠ []) :
    let r := (downloadMissingHeadersFromNode config).run s
    let lists := handed timestamp false (taken s.node.served).tail
    ClosedOr s lists r (RoundsDone s (taken s.node.served) lists (s.node.finishes timestamp) r) := by
  simp only [downloadMissingHeadersFromNode, Proc.run_bind_ok _ (Proc.run_get s)]
  rcases next_headers_served config stored with
    ⟨nothing, e, t, ran, other, headers, tx, nodes⟩ |
    ⟨batch, rest, t, available, others, ran, shorter, headers, tx, nodes⟩
  · refine .inr ⟨?_, ?_, ?_, ?_, ?_⟩ <;> rw [Proc.run_bind_error _ ran]
    · simp [nothing, taken, headers]
    · simp [nothing, taken, handed, tx]
    · exact nodes
    · simp [nothing, HeadersStream.finishes]
    · rintro _ ⟨⟩
      exact other
  · have later := missing_headers_loop_run date (s.node.incoming.length + 1) batch false t
      (by simp [headers, stored]) (by omega)
    rw [Proc.run_bind_ok _ ran, HeadersStream.finishes, available, taken_cons, List.tail_cons]
    rcases later with ⟨few, closed⟩ | done
    · rw [others, tx] at few
      exact .inl ⟨few, closed⟩
    · rw [others] at done
      refine .inr ⟨?_, ?_, done.nodes.trans nodes, done.ok_iff, done.open_⟩
      · rw [done.headers, headers, List.flatten_cons, List.append_assoc]
      · rw [done.sent, tx]

theorem try_nodes_run (date : getFirstBlockTimestamp config = .ok timestamp) {n : Nat}
    {s s' : HeadersDownload} (stored : s.blockchain.headers ≠ [])
    (ran : (tryNodes (downloadMissingHeadersFromNode config) channelClosed n).run s = (.ok (), s')) :
    let nodes := tried timestamp s.nodes.reverse
    s'.blockchain.headers = s.blockchain.headers ++ (nodes.flatMap (taken ·.served)).flatten ∧
      s'.tx.sent = s.tx.sent ++ nodes.flatMap fun node => handed timestamp false (taken node.served).tail := by
  induction n generalizing s with
  | zero => cases (Prod.mk.inj ran).1
  | succ n ih =>
    obtain ⟨rest, node, n', same, atEnd, result⟩ := try_nodes_ok ran
    obtain rfl : n' = n := by omega
    have run := @missing_headers_from_node_run _ _ config _ date { s with nodes := rest, node } stored
    rw [atEnd, List.reverse_append, List.reverse_singleton, List.singleton_append, tried]
    rcases result with last | ⟨err, t, failed, caught, later⟩
    · rw [last] at run
      rcases run with ⟨_, e, failed, _⟩ | done
      · cases failed
      · rw [if_pos (done.ok_iff.mp rfl)]
        simpa using And.intro done.headers done.sent
    · rw [failed] at run
      rcases run with ⟨_, e, same, closed⟩ | done
      · cases same
        exact absurd caught closed
      · rw [if_neg fun finished => nomatch done.ok_iff.mpr finished]
        have nodes : t.nodes = rest := done.nodes
        have grown : t.blockchain.headers = s.blockchain.headers ++ (taken node.served).flatten :=
          done.headers
        obtain ⟨headers, sent⟩ := ih (by simp [grown, stored]) later
        rw [nodes] at headers sent
        rw [headers, sent, grown, done.sent]
        simp

/-- One node that ends the download is enough, if the receiver takes what is handed over. -/
theorem download_missing_headers_ok (date : getFirstBlockTimestamp config = .ok timestamp) {s : HeadersDownload}
    {node : HeadersStream} (stored : s.blockchain.headers ≠ []) (only : s.nodes = [node])
    (ends : node.finishes timestamp = true)
    (left : (handed timestamp false (taken node.served).tail).length ≤ s.tx.accepts) :
    ∃ s', (downloadMissingHeaders config).run s = (.ok (), s') ∧
      s'.blockchain.headers = s.blockchain.headers ++ (taken node.served).flatten := by
  have run := @missing_headers_from_node_run _ _ config _ date { s with nodes := [], node } stored
  rcases ran : (downloadMissingHeadersFromNode config).run { s with nodes := [], node } with ⟨result, t⟩
  rw [ran] at run
  rcases run with ⟨few, _⟩ | done
  · exact absurd few (Nat.not_lt.mpr left)
  obtain rfl := done.ok_iff.mpr ends
  obtain ⟨result', tried, ok⟩ := try_nodes_only channelClosed only ran done.nodes nofun
  obtain rfl := ok.mpr rfl
  refine ⟨{ t with nodes := t.nodes ++ [t.node] }, ?_, done.headers⟩
  rw [downloadMissingHeaders, Proc.run_bind_ok _ (Proc.run_get s), Proc.run_bind_ok _ tried]
  rfl

/-- When the download returns, exactly what is stored from the first late enough header on has
been handed over, in order, if and only if no first batch of a node has such a header. -/
theorem headers_handed_over (date : getFirstBlockTimestamp config = .ok timestamp)
    {s s' : HeadersDownload} (stored : s.blockchain.headers ≠ [])
    (ran : (downloadMissingHeaders config).run s = (.ok (), s'))
    (sorted : (s'.blockchain.headers.drop s.blockchain.headers.length).Pairwise (·.time ≤ ·.time)) :
    (s'.tx.sent.drop s.tx.sent.length).flatten =
        (s'.blockchain.headers.drop s.blockchain.headers.length).dropWhile (·.time < timestamp) ↔
      ∀ node ∈ tried timestamp s.nodes.reverse, ∀ header ∈ node.served.headD [], header.time < timestamp := by
  obtain ⟨t, returned, rfl⟩ : ∃ t, (tryNodes (downloadMissingHeadersFromNode config) channelClosed
      (s.nodes.length + 1)).run s = (.ok (), t) ∧ s' = { t with nodes := t.nodes ++ [t.node] } := by
    rw [downloadMissingHeaders, Proc.run_bind_ok _ (Proc.run_get s), Proc.run_bind] at ran
    split at ran
    case h_1 t result => exact ⟨t, result, (Prod.mk.inj ran).2.symm⟩
    case h_2 => cases (Prod.mk.inj ran).1
  obtain ⟨headers, sent⟩ := try_nodes_run date stored returned
  simp only [headers, sent, List.drop_left] at sorted ⊢
  generalize tried timestamp s.nodes.reverse = nodes at sorted ⊢
  have first (node : HeadersStream) : (taken node.served).flatten =
      node.served.headD [] ++ (taken node.served).tail.flatten := by
    rcases node.served with _ | ⟨batch, rest⟩
    · rfl
    · rw [taken_cons, List.flatten_cons, List.headD_cons, List.tail_cons]
  rw [dropWhile_eq_filter sorted, flatten_flatMap, flatten_flatMap, List.filter_flatMap]
  have sent (node : HeadersStream) (member : node ∈ nodes) :
      (handed timestamp false (taken node.served).tail).flatten =
        (taken node.served).tail.flatten.filter (timestamp ≤ ·.time) := by
    refine (handed_flatten (sorted.sublist ?_)).2
    rw [flatten_flatMap]
    refine .trans ?_ (List.sublist_flatten_of_mem (List.mem_map_of_mem member))
    rw [first]
    exact List.sublist_append_right _ _
  rw [List.flatMap_congr sent]
  simp only [first, List.filter_append]
  rw [flatMap_append_eq_iff]
  simp

end HandOver

@[reducible] def Chrono.ofApril : Chrono where
  timestampFromStr date format :=
    if date = "2023-04-10 00:00:00" ∧ format = "%Y-%m-%d %H:%M:%S" then .ok 1681084800
    else .error "input contains invalid characters"

def HeadersConfig.ofApril : HeadersConfig := ⟨70015, 0, "2023-04-10 00:00:00", "%Y-%m-%d %H:%M:%S"⟩

/-- One node, which sends one header with this date. -/
def HeadersDownload.announcing (time : UInt32) : HeadersDownload :=
  ⟨[⟨1, [announcement (.easy time)], "", []⟩], ⟨0, [], "", []⟩, .initial, ⟨1, []⟩, []⟩

/-- The only header is dated late enough. It is stored and not handed over. -/
theorem headers_handed_over_first :
    let _ := Crates.standard
    let _ := Chrono.ofApril
    let s := HeadersDownload.announcing 1681084800
    let r := (downloadMissingHeaders .ofApril).run s
    let stored := r.2.blockchain.headers.drop s.blockchain.headers.length
    r.1 = .ok () ∧ getFirstBlockTimestamp .ofApril = .ok 1681084800 ∧
      stored.Pairwise (·.time ≤ ·.time) ∧ stored = [.easy 1681084800] ∧ r.2.tx.sent.flatten = [] ∧
      r.2.tx.sent.flatten ≠ stored.dropWhile (·.time < 1681084800) := by
  decide +kernel

def HeadersDownload.sending (batches : List (List BlockHeader)) : HeadersDownload :=
  ⟨[.serving batches], ⟨0, [], "", []⟩, .initial, ⟨1, []⟩, []⟩

/-- A full batch of headers of the day before, and a second one, in which the first late enough header is. -/
theorem headers_handed_over_second :
    let _ := Crates.standard
    let _ := Chrono.ofApril
    let early := BlockHeader.easy 1680998400
    let late := BlockHeader.easy 1681084800
    let s := HeadersDownload.sending [List.replicate 2000 early, [early, late, late]]
    ∃ s', (downloadMissingHeaders .ofApril).run s = (.ok (), s') ∧
      s'.blockchain.headers = s.blockchain.headers ++ (List.replicate 2000 early ++ [early, late, late]) ∧
      (s'.tx.sent.drop s.tx.sent.length).flatten = [late, late] := by
  intro _ _ early late
  have full : (List.replicate 2000 early).length = 2000 := List.length_replicate
  have allEarly : ∀ header ∈ List.replicate 2000 early, header = early := fun _ => List.eq_of_mem_replicate
  generalize List.replicate 2000 early = first at full allEarly ⊢
  intro s
  let node := HeadersStream.serving [first, [early, late, late]]
  have date : getFirstBlockTimestamp .ofApril = .ok 1681084800 := by decide +kernel
  have works : early.validate = .ok true ∧ late.validate = .ok true := by decide +kernel
  have validFirst : validateHeaders first = .ok () :=
    validate_headers_eq_ok.mpr fun header member => by rw [allEarly header member, works.1]
  have validSecond : validateHeaders [early, late, late] = .ok () :=
    validate_headers_eq_ok.mpr (by simp [works])
  have served : node.served = [first, [early, late, late]] := by
    rw [HeadersStream.served, HeadersStream.serving_offers (by simp [full])]
    simp [validFirst, validSecond]
  have all : (taken node.served) = [first, [early, late, late]] := by
    rw [served, taken_cons, if_pos full]
    rfl
  have ends : node.finishes 1681084800 = true := by
    rw [HeadersStream.finishes, served]
    simp [finishes]
  have one : handed 1681084800 false [[early, late, late]] = [[late, late]] := by decide +kernel
  obtain ⟨s', ran, headers⟩ := @download_missing_headers_ok _ _ _ _ date s node (List.cons_ne_nil _ _) rfl ends
    (by rw [all, List.tail_cons, one]; exact Nat.le_refl 1)
  rw [all, List.flatten_cons, List.flatten_singleton] at headers
  have added : s'.blockchain.headers.drop s.blockchain.headers.length = first ++ [early, late, late] := by
    rw [headers, List.drop_left]
  have before : ∀ header ∈ first, header.time < 1681084800 := fun header member => by
    rw [allEarly header member]
    decide +kernel
  have sorted : (s'.blockchain.headers.drop s.blockchain.headers.length).Pairwise (·.time ≤ ·.time) := by
    rw [added, List.pairwise_append]
    refine ⟨List.pairwise_of_forall_mem_list fun x inFirst y inFirst' => ?_, by decide +kernel,
      fun x inFirst y inSecond => ?_⟩
    · rw [allEarly x inFirst, allEarly y inFirst']
      exact UInt32.le_refl _
    · rw [allEarly x inFirst]
      revert y
      decide +kernel
  have sent := (headers_handed_over date (List.cons_ne_nil _ _) ran sorted).mpr fun tried listed => by
    obtain rfl : tried = node := by
      rw [show s.nodes.reverse = [node] from rfl, BitcoinNode.tried, if_pos ends] at listed
      exact List.mem_singleton.mp listed
    rw [served]
    exact before
  have rest : [early, late, late].dropWhile (·.time < 1681084800) = [late, late] := by decide +kernel
  rw [added, List.dropWhile_append_of_pos (by simpa using before), rest] at sent
  exact ⟨s', ran, headers, sent⟩

end BitcoinNode
