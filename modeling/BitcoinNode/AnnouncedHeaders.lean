import BitcoinNode.ParallelDownload
import Mathlib.Data.List.TakeWhile

/-! What the thread of the headers has stored and sent at any moment of the parallel download, when
the peers have the rest of one chain. What it sent is the end of what it stored. -/
namespace BitcoinNode

/-- Full batches and a last one that is not full. -/
inductive Ended : List (List BlockHeader) → Prop where
  | last {batch : List BlockHeader} (short : batch.length ≠ 2000) : Ended [batch]
  | cons {batch : List BlockHeader} {rest : List (List BlockHeader)} (full : batch.length = 2000)
      (more : Ended rest) : Ended (batch :: rest)

theorem ended_taken {batches : List (List BlockHeader)} (short : ∃ batch ∈ batches, batch.length ≠ 2000) :
    Ended (taken batches) := by
  induction batches with
  | nil => simp at short
  | cons batch rest ih =>
    rw [taken]
    split_ifs with full
    · simp only [List.mem_cons, exists_eq_or_imp] at short
      exact .cons full (ih (short.resolve_left (absurd full)))
    · exact .last full

theorem Ended.of_nothing {batches : List (List BlockHeader)} (ended : Ended batches) (nothing : batches.flatten = []) :
    batches = [[]] := by
  cases ended with
  | last short => simpa using nothing
  | cons full more =>
    rw [List.flatten_cons, List.append_eq_nil_iff] at nothing
    simp [nothing.1] at full

theorem finishes_taken (timestamp : UInt32) (found : Bool) (batches : List (List BlockHeader)) :
    finishes timestamp found (taken batches) = finishes timestamp found batches := by
  induction batches generalizing found with
  | nil => rfl
  | cons batch rest ih =>
    rw [taken_cons, finishes, finishes]
    by_cases full : batch.length = 2000
    · simp only [if_pos full, ih]
    · simp only [if_neg full]

theorem node_finishes_taken (timestamp : UInt32) (batches : List (List BlockHeader)) :
    nodeFinishes timestamp (taken batches) = nodeFinishes timestamp batches := by
  cases batches with
  | nil => rfl
  | cons batch rest =>
    rw [taken_cons, nodeFinishes, nodeFinishes]
    by_cases full : batch.length = 2000
    · rw [if_pos full, finishes_taken]
    · simp [full]

/-- The batches that are left, and whether the download ends with them. -/
def Finishing (timestamp : UInt32) (found : Bool) (rest : List (List BlockHeader)) (last : Bool) : Prop :=
  rest = [] ∧ (found = true → last = true) ∨ Ended rest ∧ last = finishes timestamp found rest

theorem Finishing.next {timestamp : UInt32} {found last : Bool} {batch : List BlockHeader}
    {rest : List (List BlockHeader)} (left : Finishing timestamp found (batch :: rest) last) :
    Finishing timestamp (found || late timestamp batch) rest last ∧ (batch = [] → rest = []) := by
  obtain ⟨none, _⟩ | ⟨ended, rfl⟩ := left
  · cases none
  cases ended with
  | last short =>
    refine ⟨.inl ⟨rfl, fun wanted => ?_⟩, fun _ => rfl⟩
    rw [finishes]
    split_ifs with empty
    · subst empty
      simpa [late] using wanted
    · rfl
  | cons full more =>
    have nonempty : batch ≠ [] := by
      rintro rfl
      simp at full
    refine ⟨.inr ⟨more, ?_⟩, fun empty => absurd empty nonempty⟩
    rw [finishes, if_neg nonempty, if_pos full]

/-- These lists are the end of the stored headers, and begin no earlier than this index. -/
def Handed (first : Nat) (headers : List BlockHeader) (lists : List (List BlockHeader)) : Prop :=
  ∃ before, headers = before ++ lists.flatten ∧ (lists ≠ [] → first ≤ before.length)

theorem Handed.none (first : Nat) (headers : List BlockHeader) : Handed first headers [] :=
  ⟨headers, by simp, fun some => absurd rfl some⟩

theorem dropWhile_late {timestamp : UInt32} {batch : List BlockHeader} (isLate : late timestamp batch = true) :
    ∃ header rest, batch.dropWhile (·.time < timestamp) = header :: rest ∧ timestamp ≤ header.time := by
  obtain ⟨lastHeader, last, dated⟩ := (Option.any_eq_true _ _).mp isLate
  rcases kept : batch.dropWhile (·.time < timestamp) with _ | ⟨header, rest⟩
  · have early := List.dropWhile_eq_nil_iff.mp kept lastHeader (List.mem_of_getLast? last)
    exact absurd (of_decide_eq_true dated) (UInt32.not_le.mpr (of_decide_eq_true early))
  · have first := List.head?_dropWhile_not (·.time < timestamp) batch
    rw [kept] at first
    exact ⟨header, rest, kept, UInt32.not_lt.mp (by simpa using first)⟩

theorem findIdx_le_of_late {timestamp : UInt32} {before after : List BlockHeader} {header : BlockHeader}
    (isLate : timestamp ≤ header.time) :
    (before ++ header :: after).findIdx (timestamp ≤ ·.time) ≤ before.length := by
  rw [List.findIdx_append]
  split_ifs with earlier
  · omega
  · simp [List.findIdx_cons, isLate]

theorem Handed.store {timestamp : UInt32} {chain headers batch more : List BlockHeader}
    {sent : List (List BlockHeader)} {found : Bool} (whole : headers ++ batch ++ more = chain)
    (found_iff : found = true ↔ sent ≠ [])
    (before : Handed (chain.findIdx (timestamp ≤ ·.time)) headers sent) :
    Handed (chain.findIdx (timestamp ≤ ·.time)) (headers ++ batch) (sent ++ handed timestamp found [batch]) := by
  obtain ⟨front, rfl, bound⟩ := before
  cases found with
  | true =>
    refine ⟨front, by simp [handed], fun _ => bound (found_iff.mp rfl)⟩
  | false =>
    obtain rfl : sent = [] := not_not.mp (mt found_iff.mpr Bool.false_ne_true)
    rw [List.flatten_nil, List.append_nil] at whole ⊢
    rw [List.nil_append, handed]
    split_ifs with isLate
    · have split := List.takeWhile_append_dropWhile (p := (·.time < timestamp)) (l := batch)
      obtain ⟨header, rest, shape, dated⟩ := dropWhile_late isLate
      refine ⟨front ++ batch.takeWhile (·.time < timestamp), by simp [handed], fun _ => ?_⟩
      have chainEq : chain = front ++ batch.takeWhile (·.time < timestamp) ++ header :: (rest ++ more) := by
        rw [← List.cons_append, ← shape, List.append_assoc, ← List.append_assoc (batch.takeWhile _), split, ← whole,
          List.append_assoc]
      rw [chainEq]
      exact findIdx_le_of_late dated
    · exact .none _ _

theorem Handed.subset {timestamp : UInt32} {chain headers more : List BlockHeader} {lists : List (List BlockHeader)}
    (handed : Handed (chain.findIdx (timestamp ≤ ·.time)) headers lists) (whole : headers ++ more = chain) :
    lists.flatten ⊆ chain.dropWhile (·.time < timestamp) := by
  obtain ⟨before, rfl, bound⟩ := handed
  by_cases some : lists = []
  · simp [some]
  have lateIff : (fun header : BlockHeader => !decide (header.time < timestamp)) =
      fun header => decide (timestamp ≤ header.time) := by
    funext header
    rw [← decide_not]
    exact decide_eq_decide.mpr UInt32.not_lt
  rw [List.dropWhile_eq_drop_findIdx_not, lateIff]
  intro header member
  have inside : header ∈ chain.drop before.length := by
    rw [← whole, List.append_assoc, List.drop_left]
    exact List.mem_append_left _ member
  exact (List.drop_sublist_drop_left _ (bound some)).subset inside

/-- Of one batch at most one list is handed over, which is empty only if the batch is. -/
theorem handed_batch_cases (timestamp : UInt32) (found : Bool) (batch : List BlockHeader) :
    ((found || late timestamp batch) = false ∧ handed timestamp found [batch] = []) ∨
      (found || late timestamp batch) = true ∧
        ∃ list, handed timestamp found [batch] = [list] ∧ (list = [] → batch = []) := by
  cases found with
  | true => exact .inr ⟨rfl, batch, rfl, id⟩
  | false =>
    cases isLate : late timestamp batch with
    | true =>
      obtain ⟨header, others, shape, _⟩ := dropWhile_late isLate
      exact .inr ⟨rfl, header :: others, by simp [handed, isLate, shape], by simp⟩
    | false => exact .inl ⟨rfl, by simp [handed, isLate]⟩

/-- Where the thread is between two batches: `lists` are to be sent, and `rest` to be stored. -/
structure Announced (timestamp : UInt32) (chain headers : List BlockHeader)
    (sent lists rest : List (List BlockHeader)) (found last : Bool) : Prop where
  whole : headers ++ rest.flatten = chain
  ends : Handed (chain.findIdx (timestamp ≤ ·.time)) headers (sent ++ lists)
  found_iff : found = true ↔ sent ++ lists ≠ []
  left : Finishing timestamp found rest last
  single : lists.length ≤ 1
  emptyLast : [] ∈ sent ++ lists → rest = []
  emptySent : [] ∈ sent → lists = []

/-- The first batch of a node is still to be stored, and nothing was sent. -/
structure Unannounced (timestamp : UInt32) (chain headers batch : List BlockHeader)
    (sent rest : List (List BlockHeader)) (last : Bool) : Prop where
  whole : headers ++ (batch :: rest).flatten = chain
  silent : sent = []
  ended : Ended (batch :: rest)
  finishes : last = nodeFinishes timestamp (batch :: rest)

/-- The thread of the headers is in accordance with what is stored and sent. -/
def HeadersThread.Follows (timestamp : UInt32) (chain headers : List BlockHeader)
    (sent : List (List BlockHeader)) : HeadersThread ν → Prop
  | .starting => (∃ rest, headers ++ rest = chain) ∧ sent = []
  | .downloading _ steps last =>
    (∃ batch rest, steps = nodeAnnouncements timestamp (batch :: rest) ∧
      Unannounced timestamp chain headers batch sent rest last) ∨
    ∃ lists rest found, steps = lists.map .sendHeaders ++ announcements timestamp found rest ∧
      Announced timestamp chain headers sent lists rest found last
  | .over result => (∃ rest, headers ++ rest = chain) ∧ Handed (chain.findIdx (timestamp ≤ ·.time)) headers sent ∧
    result ≠ channelIsClosed

theorem announced_nil {timestamp : UInt32} {found : Bool} {lists rest : List (List BlockHeader)}
    (steps : [] = lists.map Effect.sendHeaders ++ announcements timestamp found rest) : lists = [] ∧ rest = [] := by
  rcases lists with _ | ⟨list, lists⟩
  · rcases rest with _ | ⟨batch, rest⟩
    · exact ⟨rfl, rfl⟩
    · rw [announcements] at steps
      cases steps
  · cases steps

theorem announced_cons {timestamp : UInt32} {found : Bool} {lists rest : List (List BlockHeader)} {effect : Effect}
    {steps : List Effect}
    (next : effect :: steps = lists.map Effect.sendHeaders ++ announcements timestamp found rest) :
    (∃ list lists', lists = list :: lists' ∧ effect = .sendHeaders list ∧
      steps = lists'.map Effect.sendHeaders ++ announcements timestamp found rest) ∨
    lists = [] ∧ ∃ batch rest', rest = batch :: rest' ∧ effect = .storeHeaders batch ∧
      steps = (handed timestamp found [batch]).map Effect.sendHeaders ++
        announcements timestamp (found || late timestamp batch) rest' := by
  rcases lists with _ | ⟨list, lists⟩
  · rcases rest with _ | ⟨batch, rest⟩
    · cases next
    · rw [announcements] at next
      obtain ⟨rfl, rfl⟩ := List.cons.inj next
      exact .inr ⟨rfl, batch, rest, rfl, rfl, rfl⟩
  · obtain ⟨rfl, rfl⟩ := List.cons.inj next
    exact .inl ⟨list, lists, rfl, rfl, rfl⟩

theorem Announced.store {timestamp : UInt32} {chain headers batch : List BlockHeader}
    {sent rest : List (List BlockHeader)} {found last : Bool}
    (announced : Announced timestamp chain headers sent [] (batch :: rest) found last) :
    Announced timestamp chain (headers ++ batch) sent (handed timestamp found [batch]) rest
      (found || late timestamp batch) last := by
  have whole := announced.whole
  rw [List.flatten_cons, ← List.append_assoc] at whole
  have ends := announced.ends
  have found_iff := announced.found_iff
  rw [List.append_nil] at ends found_iff
  obtain ⟨left, closes⟩ := announced.left.next
  have nonempty : [] ∉ sent := fun empty => by simpa using announced.emptyLast (by simpa using empty)
  refine ⟨whole, ends.store whole found_iff, ?_, left, ?_, fun empty => ?_, fun empty => absurd empty nonempty⟩
  · rcases handed_batch_cases timestamp found batch with ⟨unfound, silent⟩ | ⟨wanted, list, single, _⟩
    · rw [Bool.or_eq_false_iff] at unfound
      simpa [silent, unfound.2] using found_iff
    · simp [wanted, single]
  · rcases handed_batch_cases timestamp found batch with ⟨_, silent⟩ | ⟨_, list, single, _⟩
    · simp [silent]
    · simp [single]
  · have empty := (List.mem_append.mp empty).resolve_left nonempty
    rcases handed_batch_cases timestamp found batch with ⟨_, silent⟩ | ⟨_, list, single, none⟩
    · simp [silent] at empty
    · rw [single, List.mem_singleton] at empty
      exact closes (none empty.symm)

theorem HeadersThread.Follows.through_of_empty {timestamp : UInt32} {chain headers : List BlockHeader}
    {sent : List (List BlockHeader)} {thread : HeadersThread ν}
    (follows : thread.Follows timestamp chain headers sent) (empty : [] ∈ sent) : thread.Through := by
  have some : sent ≠ [] := List.ne_nil_of_mem empty
  cases thread with
  | starting => exact absurd follows.2 some
  | downloading node steps last =>
    obtain ⟨batch, rest, _, unannounced⟩ | ⟨lists, rest, found, rfl, announced⟩ := follows
    · exact absurd unannounced.silent some
    · obtain rfl := announced.emptySent empty
      obtain rfl := announced.emptyLast (List.mem_append_left _ empty)
      refine ⟨rfl, ?_⟩
      rcases announced.left with ⟨_, wanted⟩ | ⟨ended, _⟩
      · exact wanted (announced.found_iff.mpr (by simpa using some))
      · cases ended
  | «over» => trivial

theorem HeadersThread.Follows.of_headers {timestamp : UInt32} {chain headers : List BlockHeader}
    {sent : List (List BlockHeader)} {node : ν} {effect : Effect} {steps : List Effect} {last : Bool}
    (follows : (HeadersThread.downloading node (effect :: steps) last).Follows timestamp chain headers sent) :
    effect.OfHeaders := by
  obtain ⟨batch, rest, next, _⟩ | ⟨lists, rest, found, next, _⟩ := follows
  · obtain ⟨rfl, _⟩ := List.cons.inj next
    trivial
  · rcases announced_cons next with ⟨list, _, _, rfl, _⟩ | ⟨_, batch, _, _, rfl, _⟩ <;> trivial

/-- What is sent is the end of what is stored of the chain, but for what is about to be sent. -/
theorem HeadersThread.Follows.chain {timestamp : UInt32} {chain headers : List BlockHeader}
    {sent : List (List BlockHeader)} {thread : HeadersThread ν} (follows : thread.Follows timestamp chain headers sent) :
    ∃ more lists, headers ++ more = chain ∧ Handed (chain.findIdx (timestamp ≤ ·.time)) headers (sent ++ lists) := by
  cases thread with
  | starting =>
    obtain ⟨⟨more, whole⟩, rfl⟩ := follows
    exact ⟨more, [], whole, .none _ _⟩
  | downloading node steps last =>
    obtain ⟨batch, rest, _, unannounced⟩ | ⟨lists, rest, found, _, announced⟩ := follows
    · obtain rfl := unannounced.silent
      exact ⟨_, [], unannounced.whole, .none _ _⟩
    · exact ⟨_, lists, announced.whole, announced.ends⟩
  | «over» =>
    obtain ⟨⟨more, whole⟩, ends, _⟩ := follows
    exact ⟨more, [], whole, by rwa [List.append_nil]⟩

theorem Announced.send {timestamp : UInt32} {chain headers list : List BlockHeader}
    {sent lists rest : List (List BlockHeader)} {found last : Bool}
    (announced : Announced timestamp chain headers sent (list :: lists) rest found last) :
    lists = [] ∧ Announced timestamp chain headers (sent ++ [list]) [] rest found last := by
  obtain rfl : lists = [] := List.eq_nil_of_length_eq_zero (by simpa using announced.single)
  refine ⟨rfl, ?_⟩
  have sentIff := announced.found_iff
  have ends := announced.ends
  have emptyLast := announced.emptyLast
  exact ⟨announced.whole, by simpa using ends, by simpa using sentIff, announced.left, by simp,
    by simpa using emptyLast, fun _ => rfl⟩

theorem Announced.unwanted {timestamp : UInt32} {chain headers : List BlockHeader}
    {sent : List (List BlockHeader)} {found : Bool}
    (announced : Announced timestamp chain headers sent [] [] found false) : headers = chain ∧ sent = [] := by
  have unfound : found ≠ true := by
    rintro rfl
    rcases announced.left with ⟨_, wanted⟩ | ⟨ended, _⟩
    · exact Bool.false_ne_true (wanted rfl)
    · cases ended
  have whole := announced.whole
  have found_iff := announced.found_iff
  exact ⟨by simpa using whole, by simpa using mt found_iff.mpr unfound⟩

theorem Unannounced.store {timestamp : UInt32} {chain headers batch : List BlockHeader}
    {sent rest : List (List BlockHeader)} {last : Bool}
    (unannounced : Unannounced timestamp chain headers batch sent rest last) :
    Announced timestamp chain (headers ++ batch) sent [] rest false last := by
  obtain ⟨whole, rfl, ended, rfl⟩ := unannounced
  rw [List.flatten_cons, ← List.append_assoc] at whole
  refine ⟨whole, .none _ _, by simp, ?_, by simp, by simp, by simp⟩
  rw [nodeFinishes]
  cases ended with
  | last short => exact .inl ⟨rfl, by simp⟩
  | cons full more => exact .inr ⟨more, by simp [full]⟩

/-- The peers have the rest of the chain, and the blocks of all headers that are dated late enough. -/
structure Peers.Healthy [Crates] (peers : Peers ν) (timestamp : UInt32) (chain : List BlockHeader) : Prop where
  headers : ∀ node stored rest, stored ++ rest = chain →
    (taken (peers.headers node stored)).flatten = rest ∧
      ∃ batch ∈ peers.headers node stored, batch.length ≠ 2000
  blocks : ∀ node chunk, chunk ⊆ chain.dropWhile (·.time < timestamp) → (peers.blocks node chunk).Serves chunk

/-- What a peer answers to one request for headers after another: up to 2000 of them at a time. -/
def replies : (fuel : Nat) → List BlockHeader → List (List BlockHeader)
  | 0, rest => [rest]
  | fuel + 1, rest => if rest.length < 2000 then [rest] else rest.take 2000 :: replies fuel (rest.drop 2000)

theorem replies_healthy {fuel : Nat} {rest : List BlockHeader} (enough : rest.length ≤ fuel) :
    (taken (replies fuel rest)).flatten = rest ∧ ∃ batch ∈ replies fuel rest, batch.length ≠ 2000 := by
  induction fuel generalizing rest with
  | zero =>
    obtain rfl : rest = [] := List.eq_nil_of_length_eq_zero (by omega)
    simp [replies, taken]
  | succ fuel ih =>
    rw [replies]
    split_ifs with few
    · have short : rest.length ≠ 2000 := by omega
      simp [taken, short]
    · have full : (rest.take 2000).length = 2000 := by
        rw [List.length_take]
        omega
      obtain ⟨flat, short⟩ := @ih (rest.drop 2000) (by rw [List.length_drop]; omega)
      obtain ⟨batch, member, shorter⟩ := short
      refine ⟨?_, batch, List.mem_cons_of_mem _ member, shorter⟩
      rw [taken, if_pos full, List.flatten_cons, flat, List.take_append_drop]

theorem replies_full {fuel : Nat} {batch rest : List BlockHeader} (full : batch.length = 2000) :
    replies (fuel + 1) (batch ++ rest) = batch :: replies fuel rest := by
  have many : ¬(batch ++ rest).length < 2000 := by
    rw [List.length_append]
    omega
  rw [replies, if_neg many, ← full, List.take_left, List.drop_left]

theorem replies_short {rest : List BlockHeader} (short : rest.length < 2000) (fuel : Nat) :
    replies fuel rest = [rest] := by
  cases fuel with
  | zero => rfl
  | succ => exact if_pos short

/-- Peers that have this chain, and for each header this block. -/
def Peers.synced [Crates] (chain : List BlockHeader) (block : BlockHeader → Block) : Peers ν where
  headers _ stored := replies chain.length (chain.drop stored.length)
  blocks _ chunk := ⟨chunk.length, chunk.map fun header => (block header).marshalling, "closed", []⟩

theorem Peers.synced_healthy [Crates] {timestamp : UInt32} {chain : List BlockHeader} {block : BlockHeader → Block}
    (own : ∀ header ∈ chain.dropWhile (·.time < timestamp),
      (block header).blockHeader = header ∧ (block header).WellFormed ∧ (block header).Accepted) :
    (Peers.synced chain block : Peers ν).Healthy timestamp chain := by
  refine ⟨fun node stored rest whole => ?_, fun node chunk wanted => ⟨Nat.le_refl _, ?_⟩⟩
  · subst whole
    simp only [Peers.synced, List.drop_left]
    exact replies_healthy (by simp)
  · refine ⟨chunk.map fun header => (block header).marshalling, chunk.map block, [], by simp [Peers.synced], ?_, ?_, ?_⟩
    · rw [List.forall₂_map_left_iff, List.forall₂_map_right_iff, List.forall₂_same]
      exact fun header member => BlockMessage.unmarshalling_marshalling (own header (wanted member)).2.1
    · intro b member
      obtain ⟨header, listed, rfl⟩ := List.mem_map.mp member
      exact (own header (wanted listed)).2.2
    · rw [List.map_map]
      exact List.map_congr_left fun header member => by
        rw [Function.comp, Block.hash, (own header (wanted member)).1]

namespace ParallelDownload

variable [Crates] {peers : Peers ν} {timestamp : UInt32} {chain : List BlockHeader} {d : ParallelDownload ν}

def sent (d : ParallelDownload ν) : List (List BlockHeader) := d.received ++ d.shared.rx

/-- What a step of the thread of the headers can do. -/
inductive HeadersTurn (peers : Peers ν) (timestamp : UInt32) (d : ParallelDownload ν) : ParallelDownload ν → Prop where
  | noNode (starting : d.headersThread = .starting) (empty : d.nodes = []) :
      HeadersTurn peers timestamp d { d with headersThread := .over noMoreNodes }
  | takeNode {nodes : List ν} {node : ν} (starting : d.headersThread = .starting) (pool : d.nodes = nodes ++ [node]) :
      HeadersTurn peers timestamp d { d with
        nodes
        headersThread := .downloading node (nodeAnnouncements timestamp (taken (peers.headers node d.shared.headers)))
          (nodeFinishes timestamp (peers.headers node d.shared.headers)) }
  | returnNode {node : ν} (done : d.headersThread = .downloading node [] true) :
      HeadersTurn peers timestamp d { d with nodes := d.nodes ++ [node], headersThread := .over (.ok ()) }
  | dropNode {node : ν} (failed : d.headersThread = .downloading node [] false) :
      HeadersTurn peers timestamp d { d with headersThread := .starting }
  | refused {node : ν} {effect : Effect} {steps : List Effect} {last : Bool}
      (next : d.headersThread = .downloading node (effect :: steps) last) (sends : effect.sendsHeaders = true)
      (closed : d.closed = true) :
      HeadersTurn peers timestamp d { d with headersThread := .over channelIsClosed }
  | effect {node : ν} {effect : Effect} {steps : List Effect} {last : Bool}
      (next : d.headersThread = .downloading node (effect :: steps) last) :
      HeadersTurn peers timestamp d
        { d with shared := effect.apply d.shared, headersThread := .downloading node steps last }
  | finished {result : Outcome NodeCustomErrors Unit} (ended : d.headersThread = .over result) :
      HeadersTurn peers timestamp d d

omit [Crates] in
theorem headers_step_turn (peers : Peers ν) (timestamp : UInt32) (d : ParallelDownload ν) :
    HeadersTurn peers timestamp d (d.headersStep peers timestamp) := by
  rw [headersStep]
  rcases thread : d.headersThread with _ | ⟨node, _ | ⟨effect, steps⟩, last⟩ | result
  · rcases pool : d.nodes.getLast? with _ | node
    · exact .noNode thread (List.getLast?_eq_none_iff.mp pool)
    · exact .takeNode thread (List.dropLast_append_getLast? node pool).symm
  · cases last with
    | true => exact .returnNode thread
    | false => exact .dropNode thread
  · cases refused : effect.sendsHeaders && d.closed with
    | true =>
      obtain ⟨sends, closed⟩ := (Bool.and_eq_true _ _).mp refused
      simp only [refused, if_true]
      exact .refused thread sends closed
    | false =>
      simp only [refused, Bool.false_eq_true, if_false]
      exact .effect thread
  · exact .finished thread

/-- A step of the thread of the headers keeps it in accordance, unless it sends to nobody. -/
theorem HeadersTurn.follows (healthy : peers.Healthy timestamp chain)
    (follows : d.headersThread.Follows timestamp chain d.shared.headers d.sent)
    (listened : d.closed = true → d.headersThread.Through) {d' : ParallelDownload ν}
    (turn : HeadersTurn peers timestamp d d') :
    d'.headersThread.Follows timestamp chain d'.shared.headers d'.sent := by
  cases turn with
  | noNode starting empty =>
    rw [starting] at follows
    obtain ⟨whole, silent⟩ := follows
    refine ⟨whole, ?_, by simp [noMoreNodes, channelIsClosed, Outcome.fail]⟩
    change Handed _ _ d.sent
    rw [silent]
    exact .none _ _
  | @takeNode nodes node starting pool =>
    rw [starting] at follows
    obtain ⟨⟨rest, whole⟩, silent⟩ := follows
    obtain ⟨flat, short⟩ := healthy.headers node _ rest whole
    have ended := ended_taken short
    rcases batches : taken (peers.headers node d.shared.headers) with _ | ⟨batch, more⟩
    · rw [batches] at ended
      cases ended
    · have finishes := node_finishes_taken timestamp (peers.headers node d.shared.headers)
      rw [batches] at ended flat finishes
      exact .inl ⟨batch, more, by rw [← batches], by rw [flat]; exact whole, silent, ended, finishes.symm⟩
  | returnNode done =>
    rw [done] at follows
    obtain ⟨lists, rest, found, steps, announced⟩ := follows.resolve_left (by simp [nodeAnnouncements])
    obtain ⟨rfl, rfl⟩ := announced_nil steps
    have ends := announced.ends
    rw [List.append_nil] at ends
    exact ⟨⟨_, announced.whole⟩, ends, by simp [channelIsClosed, Outcome.fail]⟩
  | dropNode failed =>
    rw [failed] at follows
    obtain ⟨lists, rest, found, steps, announced⟩ := follows.resolve_left (by simp [nodeAnnouncements])
    obtain ⟨rfl, rfl⟩ := announced_nil steps
    exact ⟨⟨_, announced.whole⟩, announced.unwanted.2⟩
  | refused next sends closed =>
    have through := listened closed
    rw [next] at through
    exact absurd through.1 (by simp)
  | effect next =>
    rw [next] at follows
    rcases follows with ⟨batch, rest, steps, unannounced⟩ | ⟨lists, rest, found, steps, announced⟩
    · obtain ⟨rfl, rfl⟩ := List.cons.inj steps
      exact .inr ⟨[], rest, false, rfl, unannounced.store⟩
    · rcases announced_cons steps with ⟨list, lists, rfl, rfl, rfl⟩ | ⟨rfl, batch, rest, rfl, rfl, rfl⟩
      · obtain ⟨rfl, sent⟩ := announced.send
        refine .inr ⟨[], rest, found, rfl, ?_⟩
        rwa [ParallelDownload.sent, List.append_assoc] at sent
      · exact .inr ⟨_, rest, _, rfl, announced.store⟩
  | finished ended => exact follows

omit [Crates] in
theorem HeadersTurn.through {d' : ParallelDownload ν} (turn : HeadersTurn peers timestamp d d')
    (through : d.headersThread.Through) : d'.headersThread.Through := by
  cases turn with
  | noNode | returnNode | refused => trivial
  | takeNode starting | dropNode starting => simp [starting, HeadersThread.Through] at through
  | effect next => simp [next, HeadersThread.Through] at through
  | finished => exact through

end ParallelDownload

end BitcoinNode
