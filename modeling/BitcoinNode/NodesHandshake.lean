import BitcoinNode.Lib.Runs
import BitcoinNode.ParallelDownload
import Mathlib.Algebra.Order.Floor.Div

/-! The handshake with the nodes. Their addresses are divided among threads in the way the blocks to
download are, and every thread connects to its own. -/
namespace BitcoinNode

/-- The work of that many threads at most, and each of them has some. -/
structure Divides (nThreads : Nat) (xs : List α) (chunks : List (List α)) : Prop where
  nonempty : ∀ chunk ∈ chunks, chunk ≠ []
  few : chunks.length ≤ nThreads
  whole : chunks.flatten = xs

theorem equal_chunk_size_eq {nThreads : Nat} (some : 1 ≤ nThreads) (len : Nat) :
    equalChunkSize len nThreads = len ⌈/⌉ nThreads := by
  rw [equalChunkSize, if_neg (Nat.ne_of_gt some), Nat.ceilDiv_eq_add_pred_div]

theorem equal_chunk_size_few {nThreads : Nat} (some : 1 ≤ nThreads) {len : Nat} (nonempty : 0 < len) :
    0 < len ⌈/⌉ nThreads ∧ len ⌈/⌉ (len ⌈/⌉ nThreads) ≤ nThreads := by
  have covered : len ≤ nThreads * (len ⌈/⌉ nThreads) := (ceilDiv_le_iff_le_mul some).mp (Nat.le_refl _)
  have positive : 0 < len ⌈/⌉ nThreads := by
    apply Nat.pos_of_ne_zero
    intro zero
    rw [zero] at covered
    omega
  refine ⟨positive, (ceilDiv_le_iff_le_mul positive).mpr ?_⟩
  rwa [Nat.mul_comm]

theorem divides_of_equal_chunk_size {nThreads : Nat} (some : 1 ≤ nThreads) {xs : List α} (nonempty : xs ≠ []) :
    ∃ cs, chunks (equalChunkSize xs.length nThreads) xs = .ok cs ∧ Divides nThreads xs cs := by
  obtain ⟨positive, few⟩ := equal_chunk_size_few some (List.length_pos_iff.mpr nonempty)
  rw [equal_chunk_size_eq some]
  generalize xs.length ⌈/⌉ nThreads = chunkSize at positive few
  have divided : chunks chunkSize xs = .ok _ := if_neg (Nat.ne_of_gt positive)
  rw [Nat.ceilDiv_eq_add_pred_div] at few
  refine ⟨_, divided, ?_, by simpa using few, chunks_flatten divided⟩
  intro chunk member
  obtain ⟨i, inside, rfl⟩ := List.mem_map.mp member
  -- The chunk with this number starts before the end.
  have starts : i * chunkSize < xs.length := by
    rw [Nat.mul_comm]
    apply Nat.lt_of_not_le
    intro past
    have last := (ceilDiv_le_iff_le_mul positive).mpr past
    rw [Nat.ceilDiv_eq_add_pred_div] at last
    exact Nat.not_lt.mpr last (List.mem_range.mp inside)
  apply List.ne_nil_of_length_pos
  rw [List.length_take, List.length_drop]
  omega

abbrev Ipv4Addr := U8Array 4

def activeNodesChunks (nodeIps : List Ipv4Addr) (nThreads : Nat) : Checked (List (List Ipv4Addr)) :=
  chunks (equalChunkSize nodeIps.length nThreads) nodeIps

/-- The chunks that get a thread. Where there is none with the number `i`, the loop ends. -/
def spawnedChunks (activeNodesChunks : List (List α)) : List Nat → List (List α)
  | [] => []
  | i :: rest =>
    if _bound : activeNodesChunks.length ≤ i then []
    else activeNodesChunks[i] :: spawnedChunks activeNodesChunks rest

theorem spawned_chunks_range' (activeNodesChunks : List (List α)) (start nThreads : Nat) :
    spawnedChunks activeNodesChunks (List.range' start nThreads) =
      (activeNodesChunks.drop start).take nThreads := by
  induction nThreads generalizing start with
  | zero => simp [spawnedChunks]
  | succ n ih =>
    rw [List.range'_succ, spawnedChunks]
    split_ifs with bound
    · rw [List.drop_of_length_le bound, List.take_nil]
    · rw [ih, List.drop_eq_getElem_cons (Nat.lt_of_not_le bound), List.take_succ_cons]

theorem spawned_chunks_eq {activeNodesChunks : List (List α)} {nThreads : Nat}
    (few : activeNodesChunks.length ≤ nThreads) :
    spawnedChunks activeNodesChunks (List.range nThreads) = activeNodesChunks := by
  rw [List.range_eq_range', spawned_chunks_range', List.drop_zero, List.take_of_length_le few]

/-- Some work is divided among some threads without a rest, and each address goes to one thread. -/
theorem work_division :
    (∀ (blocksToDownload : List BlockHeader) (nThreads : Nat), blocksToDownload ≠ [] → 1 ≤ nThreads →
      ∃ chunks, divideBlocksToDownloadInEqualChunks blocksToDownload nThreads = .ok chunks ∧
        Divides nThreads blocksToDownload chunks) ∧
    ∀ (nodeIps : List Ipv4Addr) (nThreads : Nat), nodeIps ≠ [] → 1 ≤ nThreads →
      ∃ chunks, activeNodesChunks nodeIps nThreads = .ok chunks ∧ Divides nThreads nodeIps chunks ∧
        (spawnedChunks chunks (List.range nThreads)).flatten = nodeIps := by
  refine ⟨fun blocks n nonempty some => divides_of_equal_chunk_size some nonempty, ?_⟩
  intro nodeIps nThreads nonempty some
  obtain ⟨chunks, divided, divides⟩ := divides_of_equal_chunk_size some nonempty
  refine ⟨chunks, divided, divides, ?_⟩
  rw [spawned_chunks_eq divides.few, divides.whole]

/-- Five of them for four threads are three chunks. -/
theorem work_division_five :
    (∃ chunks, divideBlocksToDownloadInEqualChunks (List.replicate 5 genesisBlockHeader) 4 = .ok chunks ∧
      Divides 4 (List.replicate 5 genesisBlockHeader) chunks) ∧
    ∃ chunks, activeNodesChunks (List.replicate 5 (U8Array.replicate 4 127)) 4 = .ok chunks ∧
      Divides 4 (List.replicate 5 (U8Array.replicate 4 127)) chunks ∧
      (spawnedChunks chunks (List.range 4)).flatten = List.replicate 5 (U8Array.replicate 4 127) :=
  ⟨work_division.1 _ 4 (List.cons_ne_nil _ _) (by decide), work_division.2 _ 4 (List.cons_ne_nil _ _) (by decide)⟩

/-- A thread of `connect_to_nodes`: it has these addresses left to try, or it has returned. -/
inductive ConnectThread where
  | connecting (nodes : List Ipv4Addr)
  | returned (result : Outcome NodeCustomErrors Unit)

/-- The threads, and the sockets they share. -/
structure NodesHandshake (σ : Type) where
  sockets : List σ
  threads : List ConnectThread

/-- `handshakeWithNodes` up to the joins. -/
def handshakeWithNodes (σ : Type) (nThreads : Nat) (nodeIps : List Ipv4Addr) : Checked (NodesHandshake σ) := do
  let activeNodesChunks ← activeNodesChunks nodeIps nThreads
  return ⟨[], (spawnedChunks activeNodesChunks (List.range nThreads)).map .connecting⟩

def ConnectThread.nodes : ConnectThread → List Ipv4Addr
  | .connecting nodes => nodes
  | .returned _ => []

/-- How often a thread has to go on until it has returned, at most. -/
def ConnectThread.turns : ConnectThread → Nat
  | .connecting nodes => nodes.length + 1
  | .returned _ => 0

def ConnectThread.result : ConnectThread → Option (Outcome NodeCustomErrors Unit)
  | .connecting _ => none
  | .returned result => some result

namespace NodesHandshake

variable {σ : Type} (connectToNode : Ipv4Addr → Outcome String σ)

/-- Looked at by a thread that has no address left: the sockets of all threads. -/
def connected (h : NodesHandshake σ) : Outcome NodeCustomErrors Unit :=
  if h.sockets.isEmpty then Outcome.fail (.HandshakeError "Any connection could be made") else .ok ()

/-- The thread with this number goes on. A connection that cannot be made is left out, and a panic on the
way ends the thread. -/
def step (h : NodesHandshake σ) (i : Nat) : NodesHandshake σ :=
  match h.threads[i]? with
  | some (.connecting (node :: nodes)) =>
    match Outcome.attempt (connectToNode node) with
    | .ok stream => ⟨h.sockets ++ stream.toOption.toList, h.threads.set i (.connecting nodes)⟩
    | .error e => { h with threads := h.threads.set i (.returned (.error e)) }
  | some (.connecting []) => { h with threads := h.threads.set i (.returned h.connected) }
  | some (.returned _) => h
  | none => h

/-- The joins, in order, of threads that have returned. -/
def join (h : NodesHandshake σ) : Outcome NodeCustomErrors Unit :=
  (h.threads.filterMap ConnectThread.result).forM joined

def turns (h : NodesHandshake σ) (i : Nat) : Nat := (h.threads[i]?.map ConnectThread.turns).getD 0

def Finished (h : NodesHandshake σ) : Prop := ∀ i, h.turns i = 0

def pending (h : NodesHandshake σ) : List Ipv4Addr := h.threads.flatMap ConnectThread.nodes

def made (node : Ipv4Addr) : Option σ := (connectToNode node).toOption

/-- The attempt ends with a connection or an error. -/
def Returns (node : Ipv4Addr) : Prop := ∃ stream, (Outcome.attempt (connectToNode node) : Outcome Empty _) = .ok stream

variable {connectToNode} {h : NodesHandshake σ}

theorem attempt_cases (connectToNode : Ipv4Addr → Outcome String σ) (node : Ipv4Addr) :
    (∃ stream, (Outcome.attempt (connectToNode node) : Outcome NodeCustomErrors _) = .ok stream ∧
      stream.toOption = made connectToNode node ∧ Returns connectToNode node) ∨
    ∃ e, (Outcome.attempt (connectToNode node) : Outcome NodeCustomErrors _) = .error e ∧
      ¬Returns connectToNode node := by
  simp only [made, Returns]
  rcases connectToNode node with (err | _ | _) | stream
  · exact .inl ⟨.error err, rfl, rfl, _, rfl⟩
  · exact .inr ⟨.panic, rfl, fun ⟨_, same⟩ => by cases same⟩
  · exact .inr ⟨.abort, rfl, fun ⟨_, same⟩ => by cases same⟩
  · exact .inl ⟨.ok stream, rfl, rfl, _, rfl⟩

theorem step_cases (connectToNode : Ipv4Addr → Outcome String σ) (h : NodesHandshake σ) (i : Nat) :
    (h.step connectToNode i = h ∧ h.turns i = 0) ∨
    (∃ node nodes, h.threads[i]? = some (.connecting (node :: nodes)) ∧
      (Returns connectToNode node ∧ h.step connectToNode i =
        ⟨h.sockets ++ (made connectToNode node).toList, h.threads.set i (.connecting nodes)⟩ ∨
      ¬Returns connectToNode node ∧ ∃ e, h.step connectToNode i =
        { h with threads := h.threads.set i (.returned (.error e)) })) ∨
    h.threads[i]? = some (.connecting []) ∧
      h.step connectToNode i = { h with threads := h.threads.set i (.returned h.connected) } := by
  rw [step, turns]
  rcases h.threads[i]? with _ | ⟨_ | ⟨node, nodes⟩⟩ | result
  · exact .inl ⟨rfl, rfl⟩
  · exact .inr (.inr ⟨rfl, rfl⟩)
  · refine .inr (.inl ⟨node, nodes, rfl, ?_⟩)
    rcases attempt_cases connectToNode node with ⟨stream, tried, same, returns⟩ | ⟨e, tried, crashes⟩
    · exact .inl ⟨returns, by simp only [tried, same]⟩
    · exact .inr ⟨crashes, e, by simp only [tried]⟩
  · exact .inl ⟨rfl, rfl⟩

theorem turns_set {i : Nat} {t : ConnectThread} (atI : h.threads[i]? = some t) (t' : ConnectThread) (j : Nat)
    (sockets : List σ) : turns ⟨sockets, h.threads.set i t'⟩ j = if i = j then t'.turns else h.turns j := by
  obtain ⟨inside, _⟩ := List.getElem?_eq_some_iff.mp atI
  by_cases same : i = j
  · subst same
    simp [turns, inside]
  · simp [turns, same, List.getElem?_set_ne]

theorem turns_step (h : NodesHandshake σ) (i j : Nat) :
    (h.step connectToNode i).turns j ≤ h.turns j - if i = j then 1 else 0 := by
  have replaced {t t' : ConnectThread} (atI : h.threads[i]? = some t) (less : t'.turns + 1 ≤ t.turns) (sockets : List σ) :
      turns ⟨sockets, h.threads.set i t'⟩ j ≤ h.turns j - if i = j then 1 else 0 := by
    rw [turns_set atI]
    split_ifs with same
    · subst same
      rw [turns, atI]
      exact Nat.le_sub_of_add_le less
    · exact Nat.le_refl _
  rcases h.step_cases connectToNode i with ⟨stays, done⟩ | ⟨node, nodes, atI, ⟨_, tried⟩ | ⟨_, _, crashed⟩⟩ |
    ⟨atI, ended⟩
  · rw [stays]
    split_ifs with same
    · subst same
      rw [done]
    · exact Nat.le_refl _
  · rw [tried]
    exact replaced atI (Nat.le_refl _) _
  · rw [crashed]
    exact replaced atI (by simp [ConnectThread.turns]) _
  · rw [ended]
    exact replaced atI (by simp [ConnectThread.turns]) _

theorem turns_execute (schedule : List Nat) (h : NodesHandshake σ) (j : Nat) :
    (execute (step connectToNode) h schedule).turns j ≤ h.turns j - schedule.count j := by
  induction schedule generalizing h with
  | nil => simp
  | cons i schedule ih =>
    have first : (h.step connectToNode i).turns j ≤ _ := h.turns_step i j
    have rest := ih (h.step connectToNode i)
    rw [execute_cons, List.count_cons]
    simp only [beq_iff_eq]
    omega

theorem exists_split {i : Nat} {t : ConnectThread} (atI : h.threads[i]? = some t) :
    ∃ before after, h.threads = before ++ t :: after ∧ ∀ t', h.threads.set i t' = before ++ t' :: after := by
  obtain ⟨inside, rfl⟩ := List.getElem?_eq_some_iff.mp atI
  refine ⟨h.threads.take i, h.threads.drop (i + 1), ?_, fun t' => ?_⟩
  · rw [← List.drop_eq_getElem_cons inside, List.take_append_drop]
  · exact List.set_eq_take_append_cons_drop.trans (if_pos inside)

theorem step_perm (h : NodesHandshake σ) (i : Nat)
    (survives : ∀ e, .returned (.error e) ∉ (h.step connectToNode i).threads) :
    ((h.step connectToNode i).sockets ++ (h.step connectToNode i).pending.filterMap (made connectToNode)).Perm
      (h.sockets ++ h.pending.filterMap (made connectToNode)) := by
  rcases h.step_cases connectToNode i with ⟨stays, _⟩ | ⟨node, nodes, atI, ⟨_, stepped⟩ | ⟨_, e, stepped⟩⟩ |
    ⟨atI, stepped⟩
  · rw [stays]
  · obtain ⟨before, after, split, replaced⟩ := exists_split atI
    rw [stepped, replaced, pending, pending, split]
    have tried : (node :: nodes).filterMap (made connectToNode) =
        (made connectToNode node).toList ++ nodes.filterMap (made connectToNode) := by
      cases connects : made connectToNode node <;> simp [connects]
    simp only [List.flatMap_append, List.flatMap_cons, ConnectThread.nodes, List.filterMap_append,
      List.append_assoc, tried]
    apply List.Perm.append_left
    exact List.perm_append_comm_assoc _ _ _
  · obtain ⟨inside, _⟩ := List.getElem?_eq_some_iff.mp atI
    refine absurd ?_ (survives e)
    rw [stepped]
    exact List.mem_set inside _
  · obtain ⟨before, after, split, replaced⟩ := exists_split atI
    rw [stepped, replaced, pending, pending, split]
    simp [ConnectThread.nodes]

theorem returned_execute (connectToNode : Ipv4Addr → Outcome String σ) {i : Nat}
    {result : Outcome NodeCustomErrors Unit} (atI : h.threads[i]? = some (.returned result)) (schedule : List Nat) :
    (execute (step connectToNode) h schedule).threads[i]? = some (.returned result) := by
  induction schedule generalizing h with
  | nil => exact atI
  | cons j schedule ih =>
    apply ih
    have other {nodes : List Ipv4Addr} (atJ : h.threads[j]? = some (.connecting nodes)) (t : ConnectThread) :
        (h.threads.set j t)[i]? = some (.returned result) := by
      rwa [List.getElem?_set_ne]
      rintro rfl
      cases atI.symm.trans atJ
    rcases h.step_cases connectToNode j with ⟨stays, _⟩ | ⟨node, nodes, atJ, ⟨_, stepped⟩ | ⟨_, e, stepped⟩⟩ |
      ⟨atJ, stepped⟩
    · rwa [stays]
    all_goals
      rw [stepped]
      exact other atJ _

theorem execute_perm (connectToNode : Ipv4Addr → Outcome String σ) (schedule : List Nat) (h : NodesHandshake σ)
    (survives : ∀ e, .returned (.error e) ∉ (execute (step connectToNode) h schedule).threads) :
    ((execute (step connectToNode) h schedule).sockets ++
      (execute (step connectToNode) h schedule).pending.filterMap (made connectToNode)).Perm
      (h.sockets ++ h.pending.filterMap (made connectToNode)) := by
  induction schedule generalizing h with
  | nil => exact .refl _
  | cons i schedule ih =>
    refine (ih _ survives).trans (h.step_perm i fun e member => ?_)
    obtain ⟨j, atJ⟩ := List.getElem?_of_mem member
    exact survives e (List.mem_of_getElem? (returned_execute connectToNode atJ schedule))

theorem Finished.returned (finished : h.Finished) {t : ConnectThread} (member : t ∈ h.threads) :
    ∃ result, t = .returned result := by
  obtain ⟨i, inside, rfl⟩ := List.getElem_of_mem member
  have done := finished i
  rw [turns, List.getElem?_eq_getElem inside] at done
  cases t : h.threads[i] with
  | connecting nodes => simp [t, ConnectThread.turns] at done
  | returned result => exact ⟨result, rfl⟩

theorem Finished.pending (finished : h.Finished) : h.pending = [] := by
  rw [NodesHandshake.pending, List.flatMap_eq_nil_iff]
  intro t member
  obtain ⟨result, rfl⟩ := finished.returned member
  rfl

theorem exists_finished (connectToNode : Ipv4Addr → Outcome String σ) (h : NodesHandshake σ) :
    ∃ schedule, (execute (step connectToNode) h schedule).Finished := by
  refine ⟨(List.range h.threads.length).flatMap fun i => List.replicate (h.turns i) i, fun i => ?_⟩
  refine Nat.eq_zero_of_le_zero ((turns_execute _ h i).trans (Nat.le_of_eq ?_))
  apply Nat.sub_eq_zero_of_le
  by_cases inside : i < h.threads.length
  · have part : List.Sublist (List.replicate (h.turns i) i)
        ((List.range h.threads.length).flatMap fun i => List.replicate (h.turns i) i) :=
      List.sublist_flatten_of_mem (List.mem_map_of_mem (List.mem_range.mpr inside))
    simpa using part.count_le i
  · rw [turns, List.getElem?_eq_none (Nat.le_of_not_lt inside)]
    exact Nat.zero_le _

/-- No attempt of the thread panics, and it finds a socket at its end. -/
def Reaches (connectToNode : Ipv4Addr → Outcome String σ) (h : NodesHandshake σ) : Prop :=
  ∀ t ∈ h.threads, t = .returned (.ok ()) ∨
    ∃ nodes, t = .connecting nodes ∧ (∀ node ∈ nodes, Returns connectToNode node) ∧
      (h.sockets ≠ [] ∨ ∃ node ∈ nodes, (made connectToNode node).isSome)

theorem Reaches.step (reaches : h.Reaches connectToNode) (i : Nat) :
    (h.step connectToNode i).Reaches connectToNode := by
  rcases h.step_cases connectToNode i with ⟨stays, _⟩ | ⟨node, nodes, atI, ⟨_, stepped⟩ | ⟨crashes, _⟩⟩ |
    ⟨atI, stepped⟩
  · rwa [stays]
  · rw [stepped]
    have grown (some : h.sockets ≠ []) : h.sockets ++ (made connectToNode node).toList ≠ [] := by simp [some]
    intro t member
    rcases List.mem_or_eq_of_mem_set member with member | rfl
    · rcases reaches t member with ended | ⟨others, rfl, returns, reached⟩
      · exact .inl ended
      · exact .inr ⟨others, rfl, returns, reached.imp_left grown⟩
    · obtain ended | ⟨_, same, returns, reached⟩ := reaches _ (List.mem_of_getElem? atI)
      · cases ended
      cases same
      refine .inr ⟨nodes, rfl, fun other listed => returns other (List.mem_cons_of_mem _ listed), ?_⟩
      rcases reached with some | ⟨other, listed, connects⟩
      · exact .inl (grown some)
      rcases List.mem_cons.mp listed with rfl | listed
      · exact .inl (by simp [Option.isSome_iff_ne_none.mp connects])
      · exact .inr ⟨other, listed, connects⟩
  · obtain ended | ⟨_, same, returns, _⟩ := reaches _ (List.mem_of_getElem? atI)
    · cases ended
    cases same
    exact absurd (returns node List.mem_cons_self) crashes
  · rw [stepped]
    intro t member
    rcases List.mem_or_eq_of_mem_set member with member | rfl
    · exact reaches t member
    · obtain ended | ⟨_, same, _, reached⟩ := reaches _ (List.mem_of_getElem? atI)
      · cases ended
      cases same
      have some : h.sockets ≠ [] := by simpa using reached
      exact .inl (by simp [connected, some])

theorem Reaches.execute (reaches : h.Reaches connectToNode) (schedule : List Nat) :
    (execute (NodesHandshake.step connectToNode) h schedule).Reaches connectToNode := by
  induction schedule generalizing h with
  | nil => exact reaches
  | cons i schedule ih => exact ih (reaches.step i)

/-- The thread with this number has panicked or will do so. -/
def Dooms (connectToNode : Ipv4Addr → Outcome String σ) (h : NodesHandshake σ) (i : Nat) : Prop :=
  (∃ e, h.threads[i]? = some (.returned (.error e))) ∨
    ∃ nodes, h.threads[i]? = some (.connecting nodes) ∧ ∃ node ∈ nodes, ¬Returns connectToNode node

theorem Dooms.step {i : Nat} (dooms : h.Dooms connectToNode i) (j : Nat) :
    (h.step connectToNode j).Dooms connectToNode i := by
  rcases dooms with ⟨e, ended⟩ | ⟨nodes, atI, other, listed, crashes⟩
  · exact .inl ⟨e, returned_execute connectToNode ended [j]⟩
  have inside := (List.getElem?_eq_some_iff.mp atI).1
  by_cases here : j = i
  · subst here
    rcases h.step_cases connectToNode j with ⟨stays, done⟩ | ⟨node, nodes', atJ, ⟨returns, stepped⟩ | ⟨_, e, stepped⟩⟩ |
      ⟨atJ, _⟩
    · rw [turns, atI] at done
      cases done
    · cases atI.symm.trans atJ
      rcases List.mem_cons.mp listed with rfl | listed
      · exact absurd returns crashes
      · exact .inr ⟨nodes', by rw [stepped]; exact List.getElem?_set_self inside, other, listed, crashes⟩
    · exact .inl ⟨e, by rw [stepped]; exact List.getElem?_set_self inside⟩
    · cases atI.symm.trans atJ
      cases listed
  · have same : (h.step connectToNode j).threads[i]? = h.threads[i]? := by
      rcases h.step_cases connectToNode j with ⟨stays, _⟩ | ⟨_, _, _, ⟨_, stepped⟩ | ⟨_, _, stepped⟩⟩ | ⟨_, stepped⟩
      · rw [stays]
      all_goals
        rw [stepped]
        exact List.getElem?_set_ne here
    exact .inr ⟨nodes, same.trans atI, other, listed, crashes⟩

theorem Dooms.execute {i : Nat} (dooms : h.Dooms connectToNode i) (schedule : List Nat) :
    (execute (NodesHandshake.step connectToNode) h schedule).Dooms connectToNode i := by
  induction schedule generalizing h with
  | nil => exact dooms
  | cons j schedule ih => exact ih (dooms.step j)

/-- A thread that cannot connect to any of its addresses, and goes on before the others. -/
theorem alone {i : Nat} {nodes : List Ipv4Addr} (atI : h.threads[i]? = some (.connecting nodes))
    (first : h.sockets = []) (returns : ∀ node ∈ nodes, Returns connectToNode node)
    (unreachable : ∀ node ∈ nodes, made connectToNode node = none) :
    (execute (step connectToNode) h (List.replicate (nodes.length + 1) i)).threads[i]? =
      some (.returned (Outcome.fail (.HandshakeError "Any connection could be made"))) := by
  induction nodes generalizing h with
  | nil =>
    obtain ⟨inside, _⟩ := List.getElem?_eq_some_iff.mp atI
    have stepped : h.step connectToNode i = { h with threads := h.threads.set i (.returned h.connected) } := by
      rw [step, atI]
    rw [List.length_nil, List.replicate_one, execute_cons, execute_nil, stepped, List.getElem?_set_self inside,
      connected, first]
    rfl
  | cons node nodes ih =>
    obtain ⟨inside, _⟩ := List.getElem?_eq_some_iff.mp atI
    obtain ⟨ended, returns⟩ := List.forall_mem_cons.mp returns
    obtain ⟨failed, others⟩ := List.forall_mem_cons.mp unreachable
    have stepped : h.step connectToNode i = ⟨h.sockets, h.threads.set i (.connecting nodes)⟩ := by
      rcases attempt_cases connectToNode node with ⟨stream, tried, same, _⟩ | ⟨e, _, crashes⟩
      · simp [step, atI, tried, same, failed]
      · exact absurd ended crashes
    rw [List.length_cons, List.replicate_succ, execute_cons, stepped]
    exact ih (List.getElem?_set_self inside) first returns others

theorem joined_eq_ok {result : Outcome NodeCustomErrors Unit} : joined result = .ok () ↔ result = .ok () := by
  rcases result with (err | _ | _) | _ <;> simp [joined, Outcome.fail, Outcome.abort]

theorem join_eq_ok : h.join = .ok () ↔ ∀ result, .returned result ∈ h.threads → result = .ok () := by
  rw [join, Outcome.forM_eq_ok]
  constructor
  · intro all result member
    exact joined_eq_ok.mp (all result (List.mem_filterMap.mpr ⟨_, member, rfl⟩))
  · intro all result member
    obtain ⟨t, member, same⟩ := List.mem_filterMap.mp member
    cases t with
    | connecting nodes => cases same
    | returned result =>
      cases same
      exact joined_eq_ok.mpr (all _ member)

/-- Whatever the order in which threads go on, they all find a socket exactly if each of them makes one
and no attempt panics. -/
theorem join_iff (starts : h.sockets = []) (fresh : ∀ t ∈ h.threads, ∃ nodes, t = .connecting nodes) :
    (∀ schedule, (execute (step connectToNode) h schedule).Finished →
      (execute (step connectToNode) h schedule).join = .ok ()) ↔
    ∀ t ∈ h.threads, (∀ node ∈ t.nodes, Returns connectToNode node) ∧
      ∃ node ∈ t.nodes, (made connectToNode node).isSome := by
  constructor
  · intro always t member
    obtain ⟨nodes, rfl⟩ := fresh t member
    obtain ⟨i, atI⟩ := List.getElem?_of_mem member
    have returns : ∀ node ∈ nodes, Returns connectToNode node := by
      by_contra crashes
      push Not at crashes
      obtain ⟨schedule, finished⟩ := exists_finished connectToNode h
      have dooms : h.Dooms connectToNode i := .inr ⟨nodes, atI, crashes⟩
      rcases dooms.execute schedule with ⟨e, ended⟩ | ⟨nodes', connecting, _⟩
      · have joined := join_eq_ok.mp (always schedule finished) _ (List.mem_of_getElem? ended)
        cases joined
      · obtain ⟨result, same⟩ := finished.returned (List.mem_of_getElem? connecting)
        cases same
    refine ⟨returns, ?_⟩
    by_contra unreachable
    have failed := alone atI starts returns fun node listed =>
      Option.not_isSome_iff_eq_none.mp fun connects => unreachable ⟨node, listed, connects⟩
    obtain ⟨schedule, finished⟩ := exists_finished connectToNode
      (execute (step connectToNode) h (List.replicate (nodes.length + 1) i))
    have stays := returned_execute connectToNode failed schedule
    rw [← execute_append] at stays finished
    have joined := join_eq_ok.mp (always _ finished) _ (List.mem_of_getElem? stays)
    cases joined
  · intro reachable schedule finished
    have start : h.Reaches connectToNode := by
      intro t member
      obtain ⟨nodes, rfl⟩ := fresh t member
      obtain ⟨returns, connects⟩ := reachable _ member
      exact .inr ⟨nodes, rfl, returns, .inr connects⟩
    refine join_eq_ok.mpr fun result member => ?_
    rcases start.execute schedule _ member with ended | ⟨nodes, connecting, _⟩
    · cases ended
      rfl
    · cases connecting

end NodesHandshake

variable {nThreads : Nat} {nodeIps : List Ipv4Addr}

theorem handshake_with_nodes_eq (some : 1 ≤ nThreads) (nonempty : nodeIps ≠ []) (σ : Type) :
    ∃ chunks, activeNodesChunks nodeIps nThreads = .ok chunks ∧ chunks.flatten = nodeIps ∧
      handshakeWithNodes σ nThreads nodeIps = .ok ⟨[], chunks.map .connecting⟩ := by
  obtain ⟨chunks, divided, divides⟩ := divides_of_equal_chunk_size some nonempty
  refine ⟨chunks, divided, divides.whole, ?_⟩
  rw [handshakeWithNodes, show activeNodesChunks nodeIps nThreads = .ok chunks from divided]
  simp [spawned_chunks_eq divides.few]

/-- When the threads have returned and none of them has failed, there is one socket for every address that
could be connected to. -/
theorem handshake_sockets (some : 1 ≤ nThreads) (nonempty : nodeIps ≠ [])
    (connectToNode : Ipv4Addr → Outcome String σ) :
    ∃ h, handshakeWithNodes σ nThreads nodeIps = .ok h ∧
      ∀ schedule, (execute (NodesHandshake.step connectToNode) h schedule).Finished →
        (execute (NodesHandshake.step connectToNode) h schedule).join = .ok () →
        (execute (NodesHandshake.step connectToNode) h schedule).sockets.Perm
          (nodeIps.filterMap (NodesHandshake.made connectToNode)) := by
  obtain ⟨chunks, divided, whole, started⟩ := handshake_with_nodes_eq some nonempty σ
  refine ⟨_, started, fun schedule finished joins => ?_⟩
  have kept := NodesHandshake.execute_perm connectToNode schedule ⟨[], chunks.map .connecting⟩
    fun e member => by cases NodesHandshake.join_eq_ok.mp joins _ member
  have pending : NodesHandshake.pending (⟨[], chunks.map .connecting⟩ : NodesHandshake σ) = nodeIps := by
    rw [NodesHandshake.pending, List.flatMap_map, ← whole, List.flatten_eq_flatMap]
    rfl
  rw [finished.pending, pending] at kept
  simpa using kept

/-- Three addresses for two threads, and the second of the three cannot be connected to. -/
theorem handshake_three :
    let nodeIps := [U8Array.replicate 4 1, U8Array.replicate 4 2, U8Array.replicate 4 3]
    let connectToNode (node : Ipv4Addr) : Outcome String UInt8 :=
      if node = U8Array.replicate 4 2 then Outcome.fail "Connection refused (os error 111)" else .ok (node.val.headD 0)
    ∃ h, handshakeWithNodes UInt8 2 nodeIps = .ok h ∧
      ∀ schedule, (execute (NodesHandshake.step connectToNode) h schedule).Finished →
        (execute (NodesHandshake.step connectToNode) h schedule).join = .ok () →
        (execute (NodesHandshake.step connectToNode) h schedule).sockets.Perm [1, 3] := by
  intro nodeIps connectToNode
  have made : nodeIps.filterMap (NodesHandshake.made connectToNode) = [1, 3] := by decide +kernel
  rw [← made]
  exact handshake_sockets (by decide) (List.cons_ne_nil _ _) connectToNode

/-- The handshake cannot fail exactly if no attempt panics and every thread has an address that can be
connected to. One thread without any may come to its end before the others have made their first
connection. -/
theorem handshake_joins (some : 1 ≤ nThreads) (nonempty : nodeIps ≠ [])
    (connectToNode : Ipv4Addr → Outcome String σ) :
    ∃ chunks h, activeNodesChunks nodeIps nThreads = .ok chunks ∧
      handshakeWithNodes σ nThreads nodeIps = .ok h ∧
      ((∀ schedule, (execute (NodesHandshake.step connectToNode) h schedule).Finished →
          (execute (NodesHandshake.step connectToNode) h schedule).join = .ok ()) ↔
        ∀ chunk ∈ chunks, (∀ node ∈ chunk, NodesHandshake.Returns connectToNode node) ∧
          ∃ node ∈ chunk, (NodesHandshake.made connectToNode node).isSome) := by
  obtain ⟨chunks, divided, _, started⟩ := handshake_with_nodes_eq some nonempty σ
  refine ⟨chunks, _, divided, started, ?_⟩
  rw [NodesHandshake.join_iff rfl fun t member => ?_]
  · exact List.forall_mem_map
  · obtain ⟨chunk, _, rfl⟩ := List.mem_map.mp member
    exact ⟨chunk, rfl⟩

/-- The same addresses, and the third is the one that cannot be connected to, so a thread has none. -/
theorem handshake_unreachable :
    let nodeIps := [U8Array.replicate 4 1, U8Array.replicate 4 2, U8Array.replicate 4 3]
    let connectToNode (node : Ipv4Addr) : Outcome String UInt8 :=
      if node = U8Array.replicate 4 3 then Outcome.fail "Connection refused (os error 111)" else .ok (node.val.headD 0)
    ∃ h, handshakeWithNodes UInt8 2 nodeIps = .ok h ∧
      ∃ schedule, (execute (NodesHandshake.step connectToNode) h schedule).Finished ∧
        (execute (NodesHandshake.step connectToNode) h schedule).join ≠ .ok () := by
  intro nodeIps connectToNode
  obtain ⟨chunks, h, divided, started, joins⟩ :=
    handshake_joins (show 1 ≤ 2 by decide) (show nodeIps ≠ [] from List.cons_ne_nil _ _) connectToNode
  refine ⟨h, started, ?_⟩
  by_contra always
  push Not at always
  have two : activeNodesChunks nodeIps 2 =
      .ok [[U8Array.replicate 4 1, U8Array.replicate 4 2], [U8Array.replicate 4 3]] := by decide +kernel
  obtain rfl := Except.ok.inj (divided.symm.trans two)
  obtain ⟨_, node, listed, connects⟩ := joins.mp always _ (List.mem_cons_of_mem _ List.mem_cons_self)
  obtain rfl := List.mem_singleton.mp listed
  cases connects

end BitcoinNode
