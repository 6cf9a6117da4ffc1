import BitcoinNode.HeadersDownload
import BitcoinNode.HeightIndex

/-! The file of the first headers. Payloads are written one after the other, as long as they are;
they are read back in records of one size. -/
namespace BitcoinNode

def Offer.Record (offer : Offer) : Prop :=
  offer.payload.length = headersMessageSize ∧
    ∃ i, HeadersMessage.unmarshalling offer.payload 0 = .ok (offer.headersRead, i)

/-- The bytes fall into records, no more than are counted without overflow, that decode to these
headers. -/
def Framed (data : List UInt8) (headers : List BlockHeader) : Prop :=
  ∃ records : List Offer, data = records.flatMap Offer.payload ∧ (∀ record ∈ records, record.Record) ∧
    records.length ≤ 1073741 ∧ headers = records.flatMap Offer.headersRead

theorem framed_of_full {written : List Offer} (full : ∀ offer ∈ written, offer.Record)
    (few : written.length ≤ 1073741) :
    Framed (written.flatMap Offer.payload) (written.flatMap Offer.headersRead) :=
  ⟨written, rfl, full, few, rfl⟩

theorem first_record {data : List UInt8} {i : Nat} {records : List Offer} (more : i < data.length)
    (cut : data.drop i = records.flatMap Offer.payload) (each : ∀ record ∈ records, record.Record) :
    ∃ record rest, records = record :: rest ∧
      (data.drop i).take headersMessageSize = record.payload ∧
      data.drop (i + headersMessageSize) = rest.flatMap Offer.payload ∧
      ¬data.length < i + headersMessageSize := by
  rcases records with _ | ⟨record, rest⟩
  · have length := congrArg List.length cut
    rw [List.length_drop] at length
    simp at length
    omega
  · have size := (each record (by simp)).1
    rw [List.flatMap_cons] at cut
    refine ⟨record, rest, rfl, by rw [cut, ← size, List.take_left], ?_, ?_⟩
    · rw [← List.drop_drop, cut, ← size, List.drop_left]
    · have length := congrArg List.length cut
      rw [List.length_drop, List.length_append, size] at length
      omega

theorem add_2000_of_fits {amount : Int32} (fits : amount.toInt + 2000 < 2 ^ 31) :
    add2000 amount = .ok (amount + 2000) := if_pos fits

theorem add_2000_of_overflow {amount : Int32} (overflow : ¬amount.toInt + 2000 < 2 ^ 31) :
    add2000 amount = Outcome.panic := if_neg overflow

theorem toInt_add_2000 {amount : Int32} (fits : amount.toInt + 2000 < 2 ^ 31) :
    (amount + 2000).toInt = amount.toInt + 2000 := by
  have low := amount.le_toInt
  rw [Int32.toInt_add]
  exact Int.bmod_eq_of_le (by simpa using by omega) (by simpa using by omega)

/-- The last `x` of the list is at position `i`. -/
def LastAt (xs : List α) (x : α) (i : Nat) : Prop := xs[i]? = some x ∧ ∀ j > i, xs[j]? ≠ some x

namespace LastAt

variable {xs : List α} {x : α} {i j : Nat}

theorem head (absent : x ∉ xs) : LastAt (x :: xs) x 0 := by
  refine ⟨rfl, fun j after atJ => ?_⟩
  obtain ⟨j, rfl⟩ := Nat.exists_eq_succ_of_ne_zero (Nat.ne_of_gt after)
  exact absent (List.mem_of_getElem? atJ)

theorem cons (last : LastAt xs x i) (first : α) : LastAt (first :: xs) x (i + 1) := by
  refine ⟨last.1, fun j after atJ => ?_⟩
  obtain ⟨j, rfl⟩ := Nat.exists_eq_succ_of_ne_zero (Nat.ne_of_gt (Nat.zero_lt_of_lt after))
  exact last.2 j (Nat.lt_of_succ_lt_succ after) atJ

theorem unique (last : LastAt xs x i) (last' : LastAt xs x j) : i = j := by
  rcases Nat.lt_trichotomy i j with before | same | after
  · exact absurd last'.1 (last.2 j before)
  · exact same
  · exact absurd last.1 (last'.2 i after)

theorem mem (last : LastAt xs x i) : x ∈ xs := List.mem_of_getElem? last.1

end LastAt

section HeadersFile

variable [Crates]

/-- The headers are stored and their heights loaded. -/
def Blockchain.load (chain : Blockchain) (headers : List BlockHeader) : Blockchain :=
  { loadHeaderHeights headers chain with headers := chain.headers ++ headers }

@[simp] theorem Blockchain.load_nil (chain : Blockchain) : chain.load [] = chain := by
  simp [load, loadHeaderHeights]

@[simp] theorem Blockchain.load_headers (chain : Blockchain) (headers : List BlockHeader) :
    (chain.load headers).headers = chain.headers ++ headers := rfl

theorem load_header_heights_cons (chain : Blockchain) (header : BlockHeader)
    (rest : List BlockHeader) : (loadHeaderHeights (header :: rest) chain).headerHeights =
      (loadHeaderHeights rest (chain.load [header])).headerHeights := by
  have shift : rest.zipIdx 1 = rest.zipIdx.map fun atIndex => (atIndex.1, 1 + atIndex.2) := List.zipIdx_eq_map_add
  simp only [loadHeaderHeights, Blockchain.load, List.zipIdx_cons, List.foldl_cons, zero_add, shift,
    List.foldl_map, List.length_append, List.length_singleton, List.zipIdx_nil, List.foldl_nil, Nat.add_assoc,
    Nat.add_zero]

theorem Blockchain.load_cons (chain : Blockchain) (header : BlockHeader) (rest : List BlockHeader) :
    chain.load (header :: rest) = (chain.load [header]).load rest := by
  rw [load, load_header_heights_cons]
  simp [load, loadHeaderHeights]

theorem Blockchain.load_append (chain : Blockchain) (first second : List BlockHeader) :
    (chain.load first).load second = chain.load (first ++ second) := by
  induction first generalizing chain with
  | nil => rw [load_nil, List.nil_append]
  | cons header rest ih => rw [load_cons, ih, List.cons_append, ← load_cons]

/-- A height is the one that was there, or the position of the last header with this hash. -/
theorem load_header_heights_get (chain : Blockchain) (headers : List BlockHeader) (hash : Hash) :
    ((loadHeaderHeights headers chain).headerHeights.get hash = chain.headerHeights.get hash ∧
        hash ∉ headers.map BlockHeader.hash) ∨
      ∃ i, LastAt (headers.map BlockHeader.hash) hash i ∧
        (loadHeaderHeights headers chain).headerHeights.get hash = some (chain.headers.length + i) := by
  induction headers generalizing chain with
  | nil => exact .inl ⟨rfl, by simp⟩
  | cons header rest ih =>
    rw [load_header_heights_cons]
    rcases ih (chain.load [header]) with ⟨same, absent⟩ | ⟨i, last, found⟩
    · have one : (chain.load [header]).headerHeights =
          chain.headerHeights.insert header.hash chain.headers.length := rfl
      by_cases own : hash = header.hash
      · subst own
        exact .inr ⟨0, .head absent, by rw [same, one, HashMap.get_insert, Nat.add_zero]⟩
      · exact .inl ⟨by rw [same, one, HashMap.get_insert_of_ne _ own], by simp [own, absent]⟩
    · refine .inr ⟨i + 1, last.cons _, ?_⟩
      rw [found, Blockchain.load_headers, List.length_append, List.length_singleton, Nat.add_assoc,
        Nat.add_comm 1]

/-- The batch that is stored, if the proofs of work are valid. -/
def Offer.stored (offer : Offer) : List BlockHeader :=
  if validateHeaders offer.headersRead = .ok () then offer.headersRead else []

/-- What is fetched from a node that can send this, when so many headers are stored. -/
def persisted (headersInDisk : Nat) : (amount : Nat) → List Offer → List Offer
  | _, [] => []
  | amount, offer :: rest =>
    if amount < headersInDisk then
      offer :: if validateHeaders offer.headersRead = .ok () then
        persisted headersInDisk (amount + offer.headersRead.length) rest else []
    else []

def persistedBy (headersInDisk : Nat) : (amount : Nat) → List HeadersStream → List Offer
  | _, [] => []
  | amount, node :: rest =>
    let own := persisted headersInDisk amount node.offers
    own ++ persistedBy headersInDisk (amount + (own.flatMap Offer.stored).length) rest

theorem read_records_run (data : List UInt8) (rounds : Nat) (amount : Int32) (i : Nat)
    (chain chain' : Blockchain) (enough : data.length - i < rounds) :
    (readRecords data rounds amount i).run chain = (.ok (), chain') ↔
      ∃ records : List Offer, data.drop i = records.flatMap Offer.payload ∧
        (∀ record ∈ records, record.Record) ∧ amount.toInt + 2000 * records.length < 2 ^ 31 ∧
        chain' = chain.load (records.flatMap Offer.headersRead) := by
  induction rounds generalizing amount i chain with
  | zero => omega
  | succ rounds ih =>
    rw [readRecords]
    have progress := headers_message_size_pos
    by_cases more : i < data.length
    · rw [if_pos more]
      constructor
      · intro ran
        by_cases fits : amount.toInt + 2000 < 2 ^ 31
        · rw [Proc.run_bind, Proc.run_lift, add_2000_of_fits fits] at ran
          simp only [Outcome.widen_ok] at ran
          split_ifs at ran with short
          · cases (Prod.mk.inj ran).1
          rcases decoded : HeadersMessage.unmarshalling ((data.drop i).take headersMessageSize) 0 with
            e | ⟨headersRead, stop⟩
          · rw [Proc.run_bind, Proc.run_lift, decoded] at ran
            rcases e with _ | _ | _ <;> cases (Prod.mk.inj ran).1
          · rw [Proc.run_bind, Proc.run_lift, decoded] at ran
            have later : (readRecords data rounds (amount + 2000) (i + headersMessageSize)).run
                (chain.load headersRead) = (.ok (), chain') := ran
            obtain ⟨records, cut, each, few, rfl⟩ := (ih _ _ _ (by omega)).mp later
            refine ⟨⟨(data.drop i).take headersMessageSize, headersRead⟩ :: records, ?_, ?_, ?_, ?_⟩
            · rw [List.flatMap_cons, ← cut, ← List.drop_drop, List.take_append_drop]
            · refine List.forall_mem_cons.mpr ⟨⟨?_, stop, decoded⟩, each⟩
              rw [List.length_take, List.length_drop]
              omega
            · rw [toInt_add_2000 fits] at few
              rw [List.length_cons]
              omega
            · rw [List.flatMap_cons, Blockchain.load_append]
        · rw [Proc.run_bind, Proc.run_lift, add_2000_of_overflow fits] at ran
          cases (Prod.mk.inj ran).1
      · rintro ⟨records, cut, each, few, same⟩
        obtain ⟨record, rest, rfl, payload, cut, whole⟩ := first_record more cut each
        obtain ⟨⟨_, stop, decoded⟩, each⟩ := List.forall_mem_cons.mp each
        rw [List.length_cons] at few
        have fits : amount.toInt + 2000 < 2 ^ 31 := by omega
        rw [List.flatMap_cons, ← Blockchain.load_append] at same
        have later := (ih (amount + 2000) (i + headersMessageSize) (chain.load record.headersRead)
          (by omega)).mpr ⟨rest, cut, each, by rw [toInt_add_2000 fits]; omega, same⟩
        rw [Proc.run_bind, Proc.run_lift, add_2000_of_fits fits]
        simp only [Outcome.widen_ok]
        rw [if_neg whole, payload, Proc.run_bind, Proc.run_lift, decoded]
        exact later
    · rw [if_neg more, List.drop_of_length_le (by omega)]
      constructor
      · intro ran
        obtain rfl := (Prod.mk.inj ran).2
        exact ⟨[], rfl, by simp, by simpa using amount.toInt_lt, by simp⟩
      · rintro ⟨records, cut, each, _, rfl⟩
        rcases records with _ | ⟨record, rest⟩
        · rw [List.flatMap_nil, Blockchain.load_nil]
          rfl
        · have empty : record.payload = [] := (List.append_eq_nil_iff.mp cut.symm).1
          have size := (each record (by simp)).1
          rw [empty, List.length_nil] at size
          exact absurd size (Nat.ne_of_lt progress)

theorem read_headers_from_disk_run (file : List UInt8) (chain chain' : Blockchain) :
    (readHeadersFromDisk file).run chain = (.ok (), chain') ↔
      ∃ headers, Framed file headers ∧ chain' = chain.load headers := by
  rw [readHeadersFromDisk, read_records_run file _ 0 0 chain chain' (by omega), List.drop_zero]
  constructor
  · rintro ⟨records, cut, each, few, rfl⟩
    exact ⟨_, ⟨records, cut, each, by simp at few; omega, rfl⟩, rfl⟩
  · rintro ⟨_, ⟨records, cut, each, few, rfl⟩, rfl⟩
    exact ⟨records, cut, each, by simp; omega, rfl⟩

theorem Offer.apply_headers (chain : Blockchain) (offer : Offer) :
    (offer.apply chain).headers = chain.headers ++ offer.stored := by
  rw [apply, stored]
  split_ifs <;> simp

theorem apply_all_headers (written : List Offer) (chain : Blockchain) :
    (written.foldl Offer.apply chain).headers = chain.headers ++ written.flatMap Offer.stored := by
  induction written generalizing chain with
  | nil => simp
  | cons offer rest ih =>
    rw [List.foldl_cons, ih, Offer.apply_headers, List.flatMap_cons, List.append_assoc]

/-- What has been written and loaded when the rounds of a node are over. -/
structure Wrote (headersInDisk : Nat) (s : HeadersDownload) (own : List Offer)
    (r : Outcome NodeCustomErrors Unit × HeadersDownload) : Prop where
  file : r.2.file = s.file ++ own.flatMap Offer.payload
  chain : r.2.blockchain = own.foldl Offer.apply s.blockchain
  nodes : r.2.nodes = s.nodes
  enough : r.1 = .ok () → headersInDisk ≤ r.2.blockchain.headers.length

theorem persisted_enough {headersInDisk amount : Nat} (enough : headersInDisk ≤ amount)
    (offers : List Offer) : persisted headersInDisk amount offers = [] := by
  cases offers with
  | nil => rfl
  | cons offer rest => exact if_neg (Nat.not_lt.mpr enough)

theorem initial_headers_loop_run (config : HeadersConfig) (rounds : Nat) (s : HeadersDownload)
    (stored : s.blockchain.headers ≠ []) (enough : s.node.incoming.length < rounds) :
    Wrote config.headersInDisk s
      (persisted config.headersInDisk s.blockchain.headers.length s.node.offers)
      ((initialHeadersLoop config rounds).run s) := by
  have receives := or_download_error_receives "Error trying to read and save headers in disk" (· ++ ·)
  induction rounds generalizing s with
  | zero => omega
  | succ rounds ih =>
    rw [initialHeadersLoop, Proc.run_bind_ok _ (Proc.run_get s)]
    by_cases missing : s.blockchain.headers.length < config.headersInDisk
    · rw [if_pos missing]
      rcases available : s.node.offers with _ | ⟨offer, others⟩
      · obtain ⟨e, node, _, ran⟩ := next_headers_nothing config receives stored available
        have failed : (nextHeaders config receiveAndPersistInitialHeadersFromNode).run s =
          (.error e, { s with node }) := ran
        rw [Proc.run_bind_error _ failed]
        exact ⟨by simp [persisted], rfl, rfl, fun returned => nomatch returned⟩
      · obtain ⟨node, rest, shorter, ran⟩ :=
          next_headers_offer config receives stored available
        rcases valid : validateHeaders offer.headersRead with e | _ <;> rw [valid] at ran
        · have failed : (nextHeaders config receiveAndPersistInitialHeadersFromNode).run s =
            (.error e, { s with
              node, blockchain := offer.apply s.blockchain, file := s.file ++ offer.payload }) := ran
          rw [Proc.run_bind_error _ failed]
          exact ⟨by simp [persisted, missing, valid], by simp [persisted, missing, valid], rfl,
            fun returned => nomatch returned⟩
        · have fetched : (nextHeaders config receiveAndPersistInitialHeadersFromNode).run s =
            (.ok offer.headersRead, { s with
              node, blockchain := offer.apply s.blockchain, file := s.file ++ offer.payload }) := ran
          have grown : (offer.apply s.blockchain).headers =
              s.blockchain.headers ++ offer.headersRead := by
            rw [Offer.apply_headers, Offer.stored, if_pos valid]
          rw [Proc.run_bind_ok _ fetched]
          have later := ih { s with
            node, blockchain := offer.apply s.blockchain, file := s.file ++ offer.payload }
            (by simp [grown, stored]) (by simp only; omega)
          simp only [rest, grown, List.length_append] at later
          rw [persisted, if_pos missing, if_pos valid]
          refine ⟨?_, later.chain, later.nodes, later.enough⟩
          rw [later.file, List.flatMap_cons, List.append_assoc]
    · rw [if_neg missing, persisted_enough (Nat.not_lt.mp missing)]
      exact ⟨by simp, rfl, rfl, fun _ => Nat.not_lt.mp missing⟩

/-- A node that can send enough valid headers ends the download. -/
theorem initial_headers_loop_ok (config : HeadersConfig) (rounds : Nat) (s : HeadersDownload)
    (stored : s.blockchain.headers ≠ []) (enough : s.node.incoming.length < rounds)
    (valid : ∀ offer ∈ s.node.offers, validateHeaders offer.headersRead = .ok ())
    (long : config.headersInDisk ≤ s.blockchain.headers.length + (s.node.offers.flatMap Offer.headersRead).length) :
    ((initialHeadersLoop config rounds).run s).1 = .ok () := by
  have receives := or_download_error_receives "Error trying to read and save headers in disk" (· ++ ·)
  induction rounds generalizing s with
  | zero => exact absurd enough (Nat.not_lt_zero _)
  | succ rounds ih =>
    rw [initialHeadersLoop, Proc.run_bind_ok _ (Proc.run_get s)]
    by_cases missing : s.blockchain.headers.length < config.headersInDisk
    · rcases available : s.node.offers with _ | ⟨offer, others⟩ <;> rw [available] at long valid
      · exact absurd missing (Nat.not_lt.mpr long)
      · obtain ⟨first, later⟩ := List.forall_mem_cons.mp valid
        obtain ⟨node, rest, shorter, ran⟩ := next_headers_offer config receives stored available
        rw [first] at ran
        have fetched : (nextHeaders config receiveAndPersistInitialHeadersFromNode).run s =
          (.ok offer.headersRead, { s with
            node, blockchain := offer.apply s.blockchain, file := s.file ++ offer.payload }) := ran
        have grown : (offer.apply s.blockchain).headers = s.blockchain.headers ++ offer.headersRead := by
          rw [Offer.apply_headers, Offer.stored, if_pos first]
        rw [if_pos missing, Proc.run_bind_ok _ fetched]
        refine ih _ (by simp [grown, stored]) (by simp only; omega) (by rwa [rest]) ?_
        simp only [rest, grown, List.length_append]
        rw [List.flatMap_cons, List.length_append] at long
        omega
    · rw [if_neg missing]
      rfl

/-- So it does if it is the only one. -/
theorem download_and_persist_headers_ok {config : HeadersConfig} {s : HeadersDownload} {node : HeadersStream}
    (stored : s.blockchain.headers ≠ []) (only : s.nodes = [node])
    (valid : ∀ offer ∈ node.offers, validateHeaders offer.headersRead = .ok ())
    (long : config.headersInDisk ≤ s.blockchain.headers.length + (node.offers.flatMap Offer.headersRead).length) :
    ∃ s', (downloadAndPersistHeaders config).run s = (.ok (), s') := by
  let t : HeadersDownload := { s with nodes := [], node, file := [] }
  have wrote := initial_headers_loop_run config (node.incoming.length + 1) t stored (Nat.lt_succ_self _)
  have returned := initial_headers_loop_ok config (node.incoming.length + 1) t stored (Nat.lt_succ_self _) valid long
  rcases ran : (downloadAndPersistInitialHeadersFromNode config).run t with ⟨result, t'⟩
  have same : (initialHeadersLoop config (node.incoming.length + 1)).run t = (result, t') := ran
  rw [same] at wrote returned
  obtain rfl : result = .ok () := returned
  have cleared : { s with file := [] }.nodes = [node] := only
  obtain ⟨_, tried, ok⟩ := try_nodes_only (fun _ => none) cleared ran wrote.nodes fun _ _ => rfl
  rw [ok.mpr rfl] at tried
  refine ⟨{ t' with nodes := t'.nodes ++ [t'.node] }, ?_⟩
  rw [downloadAndPersistHeaders, Proc.run_bind_ok _ (Proc.run_modify _ s),
    Proc.run_bind_ok _ (Proc.run_get _), Proc.run_bind_ok _ tried]
  rfl

theorem persisted_by_enough {headersInDisk amount : Nat} (enough : headersInDisk ≤ amount)
    (nodes : List HeadersStream) : persistedBy headersInDisk amount nodes = [] := by
  induction nodes with
  | nil => rfl
  | cons node rest ih =>
    rw [persistedBy, persisted_enough enough]
    simpa using ih

theorem try_nodes_wrote (config : HeadersConfig) {n : Nat} {s s' : HeadersDownload}
    (stored : s.blockchain.headers ≠ [])
    (ran : (tryNodes (downloadAndPersistInitialHeadersFromNode config) (fun _ => none) n).run s =
      (.ok (), s')) :
    let written := persistedBy config.headersInDisk s.blockchain.headers.length s.nodes.reverse
    s'.file = s.file ++ written.flatMap Offer.payload ∧
      s'.blockchain = written.foldl Offer.apply s.blockchain := by
  induction n generalizing s with
  | zero => cases (Prod.mk.inj ran).1
  | succ n ih =>
    obtain ⟨rest, node, n', same, atEnd, result⟩ := try_nodes_ok ran
    obtain rfl : n' = n := by omega
    have wrote := initial_headers_loop_run config (node.incoming.length + 1) { s with nodes := rest, node }
      stored (by simp)
    have own : (downloadAndPersistInitialHeadersFromNode config).run { s with nodes := rest, node } =
        (initialHeadersLoop config (node.incoming.length + 1)).run { s with nodes := rest, node } := rfl
    rw [atEnd, List.reverse_append, List.reverse_singleton, List.singleton_append, persistedBy]
    have length := congrArg List.length (apply_all_headers (persisted config.headersInDisk
      s.blockchain.headers.length node.offers) s.blockchain)
    rw [List.length_append] at length
    rcases result with last | ⟨err, t, failed, _, later⟩
    · rw [← own, last] at wrote
      have enough := wrote.enough rfl
      rw [wrote.chain] at enough
      simp only at enough
      simp only [persisted_by_enough (length ▸ enough), List.append_nil]
      exact ⟨wrote.file, wrote.chain⟩
    · rw [← own, failed] at wrote
      have chain : t.blockchain = _ := wrote.chain
      obtain ⟨file, blockchain⟩ := ih (s := t) (by rw [chain, apply_all_headers]; simp [stored]) later
      have nodes : t.nodes = rest := wrote.nodes
      rw [nodes, chain, length] at file blockchain
      rw [file, blockchain, wrote.file]
      simp

def Restored (file : List UInt8) (chain : Blockchain) : Prop :=
  ∃ back, (readHeadersFromDisk file).run .initial = (.ok (), back) ∧
    back.headers = chain.headers ∧ back.headerHeights = chain.headerHeights

/-- A header with an invalid proof of work has the hash of one with a valid proof of work. -/
def Clash (written : List Offer) : Prop :=
  ∃ header ∈ written.flatMap Offer.headersRead, ∃ header' ∈ written.flatMap Offer.headersRead,
    header.validate ≠ .ok true ∧ header'.validate = .ok true ∧ header.hash = header'.hash

/-- Nothing that was written was rejected afterwards. -/
def AllValid (written : List Offer) : Prop :=
  ∀ offer ∈ written, validateHeaders offer.headersRead = .ok ()

theorem apply_all_of_allValid {written : List Offer} (valid : AllValid written) (chain : Blockchain) :
    written.foldl Offer.apply chain = chain.load (written.flatMap Offer.headersRead) := by
  induction written generalizing chain with
  | nil => simp
  | cons offer rest ih =>
    obtain ⟨first, others⟩ := List.forall_mem_cons.mp valid
    have loaded : offer.apply chain = chain.load offer.headersRead := by
      rw [Offer.apply, if_pos first, Blockchain.load]
    rw [List.foldl_cons, ih others, loaded, Blockchain.load_append, List.flatMap_cons]

theorem mem_stored {written : List Offer} {header : BlockHeader}
    (member : header ∈ written.flatMap Offer.stored) :
    header ∈ written.flatMap Offer.headersRead ∧ header.validate = .ok true := by
  obtain ⟨offer, listed, inside⟩ := List.mem_flatMap.mp member
  rw [Offer.stored] at inside
  split_ifs at inside with valid
  · exact ⟨List.mem_flatMap.mpr ⟨offer, listed, inside⟩, validate_headers_eq_ok.mp valid header inside⟩
  · cases inside

theorem apply_all_height {written : List Offer} (chain : Blockchain) {hash : Hash} {low : Nat}
    (bound : low ≤ chain.headers.length)
    (found : (∃ v, low ≤ v ∧ chain.headerHeights.get hash = some v) ∨
      hash ∈ (written.flatMap Offer.headersRead).map BlockHeader.hash) :
    ∃ v, low ≤ v ∧ (written.foldl Offer.apply chain).headerHeights.get hash = some v := by
  induction written generalizing chain with
  | nil => simpa using found
  | cons offer rest ih =>
    have grown : low ≤ (offer.apply chain).headers.length := by
      rw [Offer.apply_headers, List.length_append]
      omega
    apply ih _ grown
    rcases load_header_heights_get chain offer.headersRead hash with ⟨same, absent⟩ | ⟨i, _, now⟩
    · rcases found with ⟨v, above, before⟩ | member
      · exact .inl ⟨v, above, same.trans before⟩
      · rw [List.flatMap_cons, List.map_append, List.mem_append] at member
        exact .inr (member.resolve_left absent)
    · exact .inl ⟨_, by omega, now⟩

/-- What the download wrote and left in memory is read back, if and only if no batch was rejected
after it was written and the payloads, one after the other, fall into records that decode to the
headers that were stored; or two headers clash. `left` is what an earlier reading left behind. -/
theorem headers_file_restored {config : HeadersConfig} {s s' : HeadersDownload} {left : List BlockHeader}
    (start : s.blockchain = Blockchain.initial.load left)
    (ran : (downloadAndPersistHeaders config).run s = (.ok (), s')) :
    let written := persistedBy config.headersInDisk s.blockchain.headers.length s.nodes.reverse
    (Restored s'.file s'.blockchain ↔ AllValid written ∧
        Framed (written.flatMap Offer.payload) (left ++ written.flatMap Offer.headersRead)) ∨
      Clash written := by
  intro written
  obtain ⟨file, chain⟩ : s'.file = written.flatMap Offer.payload ∧
      s'.blockchain = written.foldl Offer.apply s.blockchain := by
    have stored : s.blockchain.headers ≠ [] := by simp [start, Blockchain.initial]
    rw [downloadAndPersistHeaders, Proc.run_bind_ok _ (Proc.run_modify _ s),
      Proc.run_bind_ok _ (Proc.run_get _), Proc.run_bind] at ran
    split at ran
    case h_1 t returned =>
      obtain rfl := (Prod.mk.inj ran).2
      simpa using try_nodes_wrote config (s := { s with file := [] }) stored returned
    case h_2 => cases (Prod.mk.inj ran).1
  have length : s.blockchain.headers.length = left.length + 1 := by
    rw [start, Blockchain.load_headers, List.length_append]
    exact Nat.add_comm _ _
  by_cases valid : AllValid written
  · left
    rw [and_iff_right valid, Restored, file, chain, apply_all_of_allValid valid, start,
      Blockchain.load_append]
    constructor
    · rintro ⟨back, returned, headers, _⟩
      obtain ⟨decoded, framed, rfl⟩ := (read_headers_from_disk_run _ _ _).mp returned
      rwa [← List.append_cancel_left headers]
    · intro framed
      exact ⟨_, (read_headers_from_disk_run _ _ _).mpr ⟨_, framed, rfl⟩, rfl, rfl⟩
  · by_cases restored : Restored s'.file s'.blockchain
    · right
      obtain ⟨back, returned, headers, heights⟩ := restored
      obtain ⟨decoded, _, rfl⟩ := (read_headers_from_disk_run _ _ _).mp returned
      rw [chain, apply_all_headers, start, Blockchain.load_headers, Blockchain.load_headers,
        List.append_assoc] at headers
      obtain rfl := List.append_cancel_left headers
      obtain ⟨offer, listed, rejected⟩ : ∃ offer ∈ written,
          validateHeaders offer.headersRead ≠ .ok () := by simpa [AllValid] using valid
      obtain ⟨header, inside, invalid⟩ : ∃ header ∈ offer.headersRead, header.validate ≠ .ok true := by
        simpa [validate_headers_eq_ok] using rejected
      have member : header ∈ written.flatMap Offer.headersRead :=
        List.mem_flatMap.mpr ⟨offer, listed, inside⟩
      obtain ⟨v, above, found⟩ := apply_all_height s.blockchain (Nat.le_refl _)
        (.inr (List.mem_map_of_mem member))
      -- On reading, the height can only come from a header that was stored in this run.
      rw [← chain, ← heights] at found
      rcases load_header_heights_get .initial (left ++ written.flatMap Offer.stored) header.hash with
        ⟨same, _⟩ | ⟨i, last, now⟩
      · have zero : v = 0 := by
          rw [Blockchain.load, same, Blockchain.initial] at found
          by_cases key : header.hash = sentinel
          · rw [key, HashMap.get_insert] at found
            exact (Option.some.inj found).symm
          · rw [HashMap.get_insert_of_ne _ key, HashMap.get_empty] at found
            cases found
        omega
      · rw [Blockchain.load, now] at found
        obtain rfl := Option.some.inj found
        have later : left.length ≤ i := by
          simp only [Blockchain.initial, List.length_singleton] at above
          omega
        obtain ⟨header', atI, same⟩ := Option.map_eq_some_iff.mp (List.getElem?_map.symm.trans last.1)
        rw [List.getElem?_append_right later] at atI
        obtain ⟨member', valid'⟩ := mem_stored (List.mem_of_getElem? atI)
        exact ⟨header, member, header', member', invalid, valid', same.symm⟩
    · exact .inl (iff_of_false restored fun both => valid both.1)

end HeadersFile

/-- Two headers are wanted, and one node sends two messages with one header each. -/
def HeadersDownload.shortBatches : HeadersDownload :=
  ⟨[⟨2, [announcement (.easy 1), announcement (.easy 2)], "", []⟩], ⟨0, [], "", []⟩, .initial, ⟨0, []⟩, []⟩

/-- The file is shorter than one record, and reading it panics. -/
theorem headers_file_restored_short :
    let _ := Crates.standard
    let r := (downloadAndPersistHeaders ⟨70015, 3, "", ""⟩).run .shortBatches
    r.1 = .ok () ∧ r.2.file.length = 164 ∧
      ((readHeadersFromDisk r.2.file).run .initial).1 = Outcome.panic ∧
      ¬Restored r.2.file r.2.blockchain := by
  intro _ r
  obtain ⟨returned, size, panics⟩ : r.1 = .ok () ∧ r.2.file.length = 164 ∧
      ((readHeadersFromDisk r.2.file).run .initial).1 = Outcome.panic := by decide +kernel
  refine ⟨returned, size, panics, fun ⟨back, read, _⟩ => ?_⟩
  rw [read] at panics
  cases panics

def HeadersDownload.persisting (batch : List BlockHeader) : HeadersDownload :=
  ⟨[.serving [batch]], ⟨0, [], "", []⟩, .initial, ⟨0, []⟩, []⟩

/-- One message with two thousand headers, which is one record of the file. -/
theorem headers_file_restored_full :
    let _ := Crates.standard
    let s := HeadersDownload.persisting (List.replicate 2000 (.easy 1))
    ∃ s', (downloadAndPersistHeaders ⟨70015, 2001, "", ""⟩).run s = (.ok (), s') ∧
      Restored s'.file s'.blockchain := by
  intro _
  have full : (List.replicate 2000 (BlockHeader.easy 1)).length = 2000 := List.length_replicate
  have same : ∀ header ∈ List.replicate 2000 (BlockHeader.easy 1), header = .easy 1 :=
    fun _ => List.eq_of_mem_replicate
  generalize List.replicate 2000 (BlockHeader.easy 1) = batch at full same ⊢
  intro s
  have work : (BlockHeader.easy 1).validate = .ok true := by decide +kernel
  have each : ∀ header ∈ batch, header.validate = .ok true := fun header member => by rw [same header member, work]
  have valid : validateHeaders batch = .ok () := validate_headers_eq_ok.mpr each
  let node := HeadersStream.serving [batch]
  have offers : node.offers = [⟨headersMessagePayload batch, batch⟩] :=
    HeadersStream.serving_offers (by simp [full])
  have one : s.blockchain.headers.length = 1 := rfl
  obtain ⟨s', ran⟩ := @download_and_persist_headers_ok _ ⟨70015, 2001, "", ""⟩ s node (List.cons_ne_nil _ _) rfl
    (by rw [offers]; simpa using valid) (by rw [offers, List.flatMap_singleton, full, one])
  have written : persistedBy 2001 s.blockchain.headers.length s.nodes.reverse =
      [⟨headersMessagePayload batch, batch⟩] := by
    have nodes : s.nodes.reverse = [node] := rfl
    rw [nodes, one, persistedBy, offers, persistedBy, persisted, if_pos (by decide), if_pos valid, persisted,
      List.append_nil]
  have size : (headersMessagePayload batch).length = headersMessageSize := by
    have count : (CompactSizeUint.new 2000).marshalling.length = 3 := by decide
    rw [headers_message_payload_length, full, count, headersMessageSize]
  obtain ⟨stop, decoded⟩ := @HeadersMessage.unmarshalling_payload batch (by simp [full])
  have restored := @headers_file_restored _ ⟨70015, 2001, "", ""⟩ s s' [] (by rw [Blockchain.load_nil]; rfl) ran
  rw [written] at restored
  refine ⟨s', ran, ?_⟩
  rcases restored with exact | ⟨header, member, _, _, invalid, _⟩
  · refine exact.mpr ⟨List.forall_mem_singleton.mpr valid, ?_⟩
    exact framed_of_full (List.forall_mem_singleton.mpr ⟨size, stop, decoded⟩)
      (by rw [List.length_singleton]; decide)
  · rw [List.flatMap_singleton] at member
    exact absurd (each header member) invalid

end BitcoinNode
