import BitcoinNode.Handlers
import BitcoinNode.Lib.DecoderPanics

/-! The server for incoming connections. A round of its loop takes one connection, or finds that there is none.
The connections are counted once they are accepted, and compared with the maximum before. -/
namespace BitcoinNode

/-- A connection: what each call on it gives, in the order in which the handshake makes them. -/
structure IncomingConnection where
  localAddr : Except String Unit
  peerAddr : Except String Unit
  readVersionMessage : Except String Unit
  getVersionMessage : Except String Unit
  writeVersionMessage : Except String Unit
  readVerackMessage : Except String Unit
  writeVerackMessage : Except String Unit

/-- `nodesHandle` has the threads, by the connection each of them listens to. `poisoned`: a thread panicked
while it held them. -/
structure NodeMessageHandler where
  nodesSender : List NodeSender
  nodesHandle : List IncomingConnection
  poisoned : Bool

/-- `call.map_err(|err| error(err.to_string()))?` -/
def orFail (error : String → NodeCustomErrors) : Except String Unit → Outcome NodeCustomErrors Unit
  | .ok () => .ok ()
  | .error err => Outcome.fail (error err)

namespace IncomingConnection

def handshake (stream : IncomingConnection) : Outcome NodeCustomErrors Unit := do
  orFail .SocketError stream.localAddr
  orFail .SocketError stream.peerAddr
  orFail .CanNotRead stream.readVersionMessage
  orFail .OtherError stream.getVersionMessage
  orFail .WriteNodeError stream.writeVersionMessage
  orFail .CanNotRead stream.readVerackMessage
  orFail .WriteNodeError stream.writeVerackMessage

end IncomingConnection

/-- The channel is kept before the threads are locked. -/
def addConnection (connection : IncomingConnection) : Proc NodeMessageHandler NodeCustomErrors Unit := do
  Proc.modify fun node => { node with nodesSender := node.nodesSender ++ [⟨true, []⟩] }
  let node ← Proc.get
  if node.poisoned then Proc.lift (Outcome.fail poisoned)
  else Proc.modify fun node => { node with nodesHandle := node.nodesHandle ++ [connection] }

def handleIncomingConnection (stream : IncomingConnection) : Proc NodeMessageHandler NodeCustomErrors Unit := do
  Proc.lift stream.handshake
  addConnection stream

/-- What `listener.incoming()` gives. The listener does not block. -/
inductive Incoming where
  | connection (stream : IncomingConnection)
  | wouldBlock
  | failed (err : String)

/-- One round: whether a stop message is in the channel, and what comes in. -/
structure Poll where
  stop : Bool
  incoming : Incoming

/-- `ended` is what `listen` returned. -/
structure Listening where
  node : NodeMessageHandler
  amountOfConnections : UInt8
  ended : Option (Outcome NodeCustomErrors Unit)

def Listening.start (node : NodeMessageHandler) : Listening := ⟨node, 0, none⟩

/-- The count of the connections panics where it overflows. -/
def Listening.accept (maxConnectionsToServer : UInt8) (s : Listening) (stream : IncomingConnection) : Listening :=
  if s.amountOfConnections > maxConnectionsToServer then { s with ended := some (.ok ()) }
  else
    let handled := (handleIncomingConnection stream).run s.node
    match handled.1 with
    | .error e => { s with node := handled.2, ended := some (.error e) }
    | .ok () =>
      if s.amountOfConnections = 255 then { s with node := handled.2, ended := some Outcome.panic }
      else { s with node := handled.2, amountOfConnections := s.amountOfConnections + 1 }

/-- The body of the loop of `listen`. -/
def Listening.step (maxConnectionsToServer : UInt8) (s : Listening) (poll : Poll) : Listening :=
  if s.ended.isSome then s
  else if poll.stop then { s with ended := some (.ok ()) }
  else match poll.incoming with
    | .connection stream => s.accept maxConnectionsToServer stream
    | .wouldBlock => s
    | .failed err => { s with ended := some (Outcome.fail (.CanNotRead err)) }

def NodeMessageHandler.added (node : NodeMessageHandler) (connection : IncomingConnection) : NodeMessageHandler :=
  { node with
    nodesSender := node.nodesSender ++ [⟨true, []⟩], nodesHandle := node.nodesHandle ++ [connection] }

/-- No more connections than the maximum are handed to the node, and the count does not overflow; and no failed
handshake is an error of the loop. `before` connections were there at the start. -/
structure Listening.Kept (maxConnectionsToServer : UInt8) (before : Nat) (s : Listening) (polls : List Poll) :
    Prop where
  bounded : Throughout (step maxConnectionsToServer) (fun s =>
    s.node.nodesHandle.length ≤ before + maxConnectionsToServer.toNat ∧ s.ended ≠ some Outcome.panic) s polls
  tolerant : EachCall (step maxConnectionsToServer) (fun s poll =>
    ∀ stream e e', poll.incoming = .connection stream → stream.handshake = .error e → s.ended = none →
      (step maxConnectionsToServer s poll).ended ≠ some (.error e')) s polls

/-- The rounds in which the loop ends for a reason other than the connection that comes in. -/
def Poll.ends (poisoned : Bool) (poll : Poll) : Bool :=
  poll.stop || match poll.incoming with
    | .connection stream => poisoned && decide (stream.handshake = .ok ())
    | .wouldBlock => false
    | .failed _ => true

def Poll.stream (poll : Poll) : Option IncomingConnection :=
  match poll.incoming with
  | .connection stream => some stream
  | .wouldBlock => none
  | .failed _ => none

/-- The connections that come in before the loop ends for another reason. -/
def attempts (poisoned : Bool) (polls : List Poll) : List IncomingConnection :=
  (polls.takeWhile fun poll => !poll.ends poisoned).filterMap Poll.stream

namespace Listening

variable {maxConnectionsToServer : UInt8} {before : Nat} {s : Listening} {poll : Poll} {polls : List Poll}

theorem step_ended (ended : s.ended.isSome) (poll : Poll) : s.step maxConnectionsToServer poll = s := if_pos ended

theorem step_stop (listening : s.ended = none) (stop : poll.stop = true) :
    s.step maxConnectionsToServer poll = { s with ended := some (.ok ()) } := by
  simp [step, listening, stop]

theorem handle_failed {stream : IncomingConnection} {node : NodeMessageHandler} {e : Failure NodeCustomErrors}
    (failed : stream.handshake = .error e) : (handleIncomingConnection stream).run node = (.error e, node) := by
  rw [handleIncomingConnection, Proc.run_bind, Proc.run_lift, failed]

theorem handle_ok {stream : IncomingConnection} {node : NodeMessageHandler} (shaken : stream.handshake = .ok ()) :
    (handleIncomingConnection stream).run node =
      if node.poisoned then (Outcome.fail poisoned, { node with nodesSender := node.nodesSender ++ [⟨true, []⟩] })
      else (.ok (), node.added stream) := by
  rw [handleIncomingConnection, Proc.run_bind, Proc.run_lift, shaken]
  cases poisoned : node.poisoned <;> simp [addConnection, NodeMessageHandler.added, Proc.run_bind, poisoned]

theorem kept_cons : s.Kept maxConnectionsToServer before (poll :: polls) ↔
    (s.node.nodesHandle.length ≤ before + maxConnectionsToServer.toNat ∧ s.ended ≠ some Outcome.panic) ∧
    (∀ stream e e', poll.incoming = .connection stream → stream.handshake = .error e → s.ended = none →
      (s.step maxConnectionsToServer poll).ended ≠ some (.error e')) ∧
    (s.step maxConnectionsToServer poll).Kept maxConnectionsToServer before polls := by
  constructor
  · rintro ⟨bounded, tolerant⟩
    obtain ⟨here, bounded⟩ := throughout_cons.mp bounded
    obtain ⟨passes, tolerant⟩ := eachCall_cons.mp tolerant
    exact ⟨here, passes, bounded, tolerant⟩
  · rintro ⟨here, passes, bounded, tolerant⟩
    exact ⟨throughout_cons.mpr ⟨here, bounded⟩, eachCall_cons.mpr ⟨passes, tolerant⟩⟩

theorem kept_of_ended {result : Outcome NodeCustomErrors Unit} (ended : s.ended = some result)
    (few : s.node.nodesHandle.length ≤ before + maxConnectionsToServer.toNat) (sound : result ≠ Outcome.panic) :
    s.Kept maxConnectionsToServer before polls := by
  induction polls with
  | nil =>
    have here : s.ended ≠ some Outcome.panic := by simpa [ended] using sound
    exact ⟨throughout_nil.mpr ⟨few, here⟩, eachCall_nil⟩
  | cons poll polls ih =>
    have stays : s.step maxConnectionsToServer poll = s := step_ended (by simp [ended]) poll
    rw [kept_cons, stays]
    refine ⟨⟨few, by simpa [ended] using sound⟩, ?_, ih⟩
    intro _ _ _ _ _ none
    simp [none] at ended

/-- The loop goes on, with as many connections handed to the node as it has counted. -/
structure Counts (maxConnectionsToServer : UInt8) (before : Nat) (s : Listening) : Prop where
  listening : s.ended = none
  few : s.amountOfConnections ≤ maxConnectionsToServer
  handed : s.node.nodesHandle.length = before + s.amountOfConnections.toNat

section Rounds

variable (counts : s.Counts maxConnectionsToServer before)

include counts

theorem Counts.step_connection {stream : IncomingConnection} (stop : poll.stop = false)
    (incoming : poll.incoming = .connection stream) :
    s.step maxConnectionsToServer poll = s.accept maxConnectionsToServer stream := by
  simp [step, counts.listening, stop, incoming]

theorem Counts.accept_failed {stream : IncomingConnection} {e : Failure NodeCustomErrors}
    (failed : stream.handshake = .error e) :
    s.accept maxConnectionsToServer stream = { s with ended := some (.error e) } := by
  rw [accept, if_neg (UInt8.not_lt.mpr counts.few), handle_failed failed]

theorem Counts.accept_poisoned {stream : IncomingConnection} (dead : s.node.poisoned = true)
    (shaken : stream.handshake = .ok ()) : s.accept maxConnectionsToServer stream =
      { s with
        node := { s.node with nodesSender := s.node.nodesSender ++ [⟨true, []⟩] }
        ended := some (Outcome.fail poisoned) } := by
  rw [accept, if_neg (UInt8.not_lt.mpr counts.few), handle_ok shaken, if_pos dead]
  rfl

theorem Counts.accept_ok {stream : IncomingConnection} (alive : s.node.poisoned = false)
    (shaken : stream.handshake = .ok ()) : s.accept maxConnectionsToServer stream =
      if s.amountOfConnections = 255 then { s with node := s.node.added stream, ended := some Outcome.panic }
      else { s with
        node := s.node.added stream, amountOfConnections := s.amountOfConnections + 1 } := by
  rw [accept, if_neg (UInt8.not_lt.mpr counts.few), handle_ok shaken, if_neg (by simp [alive])]

theorem Counts.next {stream : IncomingConnection} (alive : s.node.poisoned = false)
    (shaken : stream.handshake = .ok ()) (room : s.amountOfConnections < maxConnectionsToServer) :
    (s.accept maxConnectionsToServer stream).Counts maxConnectionsToServer before ∧
      (s.accept maxConnectionsToServer stream).node.poisoned = s.node.poisoned ∧
      (s.accept maxConnectionsToServer stream).amountOfConnections.toNat =
        s.amountOfConnections.toNat + 1 := by
  have range := maxConnectionsToServer.toNat_lt
  rw [UInt8.lt_iff_toNat_lt] at room
  have below : s.amountOfConnections ≠ 255 := by
    intro full
    rw [full] at room
    simp at room
    omega
  have counted : (s.amountOfConnections + 1).toNat = s.amountOfConnections.toNat + 1 := by
    rw [UInt8.toNat_add]
    simp
    omega
  rw [counts.accept_ok alive shaken, if_neg below]
  refine ⟨⟨counts.listening, ?_, ?_⟩, rfl, counted⟩
  · rw [UInt8.le_iff_toNat_le, counted]
    exact room
  · rw [counted, ← Nat.add_assoc, ← counts.handed]
    exact List.length_append

theorem Counts.here :
    s.node.nodesHandle.length ≤ before + maxConnectionsToServer.toNat ∧ s.ended ≠ some Outcome.panic := by
  refine ⟨?_, by simp [counts.listening]⟩
  rw [counts.handed]
  exact Nat.add_le_add_left (UInt8.le_iff_toNat_le.mp counts.few) before

theorem Counts.kept_of_ends (ends : poll.ends s.node.poisoned = true) (polls : List Poll) :
    s.Kept maxConnectionsToServer before (poll :: polls) := by
  obtain ⟨few, _⟩ := counts.here
  cases stop : poll.stop with
  | true =>
    have ended : s.step maxConnectionsToServer poll = { s with ended := some (.ok ()) } :=
      step_stop counts.listening stop
    rw [kept_cons, ended]
    exact ⟨counts.here, by simp, kept_of_ended rfl few (by simp [Outcome.panic])⟩
  | false =>
    rw [Poll.ends, stop, Bool.false_or] at ends
    cases incoming : poll.incoming with
    | wouldBlock => simp [incoming] at ends
    | failed err =>
      have ended : s.step maxConnectionsToServer poll =
          { s with ended := some (Outcome.fail (.CanNotRead err)) } := by
        simp [step, counts.listening, stop, incoming]
      rw [kept_cons, ended]
      exact ⟨counts.here, by simp [incoming], kept_of_ended rfl few (by simp [Outcome.panic, Outcome.fail])⟩
    | connection stream =>
      obtain ⟨dead, shaken⟩ : s.node.poisoned = true ∧ stream.handshake = .ok () := by simpa [incoming] using ends
      rw [kept_cons, counts.step_connection stop incoming, counts.accept_poisoned dead shaken]
      refine ⟨counts.here, ?_, kept_of_ended rfl few (by simp [Outcome.panic, Outcome.fail])⟩
      intro _ _ _ same failed
      cases incoming.symm.trans same
      simp [shaken] at failed

end Rounds

theorem attempts_cons (poisoned : Bool) (poll : Poll) (polls : List Poll) : attempts poisoned (poll :: polls) =
    if poll.ends poisoned then [] else poll.stream.toList ++ attempts poisoned polls := by
  unfold attempts
  rw [List.takeWhile_cons]
  cases poll.ends poisoned <;> cases stream : poll.stream <;> simp [stream]

/-- From a count on, everything is kept exactly when no handshake fails and there is room for all that come. -/
theorem Counts.kept_iff (counts : s.Counts maxConnectionsToServer before) (polls : List Poll) :
    s.Kept maxConnectionsToServer before polls ↔
      (∀ stream ∈ attempts s.node.poisoned polls, stream.handshake = .ok ()) ∧
      s.amountOfConnections.toNat + (attempts s.node.poisoned polls).length ≤
        maxConnectionsToServer.toNat := by
  induction polls generalizing s with
  | nil =>
    have few := UInt8.le_iff_toNat_le.mp counts.few
    exact iff_of_true ⟨throughout_nil.mpr counts.here, eachCall_nil⟩ ⟨by simp [attempts], by simpa [attempts] using few⟩
  | cons poll polls ih =>
    rw [attempts_cons]
    by_cases ends : poll.ends s.node.poisoned = true
    · have few := UInt8.le_iff_toNat_le.mp counts.few
      rw [if_pos ends]
      exact iff_of_true (counts.kept_of_ends ends polls) ⟨by simp, by simpa using few⟩
    rw [if_neg ends]
    rw [Bool.not_eq_true, Poll.ends, Bool.or_eq_false_iff] at ends
    obtain ⟨stop, ends⟩ := ends
    cases incoming : poll.incoming with
    | failed err => simp [incoming] at ends
    | wouldBlock =>
      have waits : s.step maxConnectionsToServer poll = s := by
        simp [step, counts.listening, stop, incoming]
      rw [kept_cons, waits, ih counts]
      simp [counts.here, incoming, Poll.stream]
    | connection stream =>
      have attempted : poll.stream = some stream := by simp [Poll.stream, incoming]
      have passes : s.node.poisoned = true → stream.handshake ≠ .ok () := by simpa [incoming] using ends
      rw [attempted, kept_cons, counts.step_connection stop incoming]
      cases shaken : stream.handshake with
      | error e =>
        -- The loop ends with the error of the handshake.
        apply iff_of_false
        · rintro ⟨_, tolerant, _⟩
          apply tolerant stream e e incoming shaken counts.listening
          rw [counts.accept_failed shaken]
        · rintro ⟨all, _⟩
          have passed := all stream (by simp)
          rw [shaken] at passed
          cases passed
      | ok =>
        have alive : s.node.poisoned = false := Bool.eq_false_iff.mpr fun dead => passes dead shaken
        by_cases room : s.amountOfConnections < maxConnectionsToServer
        · obtain ⟨next, same, counted⟩ := counts.next alive shaken room
          have tolerant : ∀ stream' e e', poll.incoming = .connection stream' → stream'.handshake = .error e →
              s.ended = none → (s.accept maxConnectionsToServer stream).ended ≠ some (.error e') := by
            intro _ _ _ same failed
            cases incoming.symm.trans same
            simp [shaken] at failed
          rw [and_iff_right counts.here, and_iff_right tolerant, ih next, same, counted, Nat.add_assoc]
          simp [shaken, Nat.add_comm 1]
        · -- The connection is one too many, and it is handed to the node.
          have full : maxConnectionsToServer.toNat ≤ s.amountOfConnections.toNat :=
            UInt8.le_iff_toNat_le.mp (UInt8.not_lt.mp room)
          apply iff_of_false
          · rintro ⟨_, _, bounded, _⟩
            have few := (bounded [] List.nil_prefix).1
            have handed : (s.accept maxConnectionsToServer stream).node.nodesHandle.length =
                s.node.nodesHandle.length + 1 := by
              rw [counts.accept_ok alive shaken]
              split_ifs <;> exact List.length_append
            rw [execute_nil, handed, counts.handed] at few
            omega
          · rintro ⟨_, few⟩
            rw [List.length_append] at few
            simp only [Option.toList_some, List.length_singleton] at few
            omega

end Listening

/-- The loop keeps to its maximum and goes on after handshakes that fail exactly when none fails and no more
connections come in than the maximum. -/
theorem listen_kept_iff (maxConnectionsToServer : UInt8) (node : NodeMessageHandler) (polls : List Poll) :
    (Listening.start node).Kept maxConnectionsToServer node.nodesHandle.length polls ↔
      (∀ stream ∈ attempts node.poisoned polls, stream.handshake = .ok ()) ∧
      (attempts node.poisoned polls).length ≤ maxConnectionsToServer.toNat := by
  have counts : (Listening.start node).Counts maxConnectionsToServer node.nodesHandle.length :=
    ⟨rfl, UInt8.zero_le, rfl⟩
  rw [counts.kept_iff polls]
  simp [Listening.start]

/-- With room for fifteen there are sixteen, with room for 255 the count overflows, and the first peer that
keeps silent ends the loop. -/
theorem listen_sixteen :
    let node : NodeMessageHandler := ⟨[], [], false⟩
    let answers : IncomingConnection := ⟨.ok (), .ok (), .ok (), .ok (), .ok (), .ok (), .ok ()⟩
    let silent : IncomingConnection := { answers with readVerackMessage := .error "timed out" }
    let listen (maxConnectionsToServer : UInt8) (streams : List IncomingConnection) :=
      execute (Listening.step maxConnectionsToServer) (Listening.start node)
        (streams.map fun stream => ⟨false, .connection stream⟩)
    (listen 15 (List.replicate 16 answers)).node.nodesHandle.length = 16 ∧
      (listen 255 (List.replicate 256 answers)).ended = some Outcome.panic ∧
      (listen 15 [silent, answers]).ended = some (Outcome.fail (.CanNotRead "timed out")) ∧
      ¬∀ (maxConnectionsToServer : UInt8) (node : NodeMessageHandler) (polls : List Poll),
        (Listening.start node).Kept maxConnectionsToServer node.nodesHandle.length polls := by
  intro node answers silent listen
  refine ⟨by decide +kernel, by decide +kernel, by decide +kernel, ?_⟩
  intro all
  have tolerant := (all 15 node [⟨false, .connection silent⟩]).tolerant
  exact tolerant [] _ [] rfl silent (.err (.CanNotRead "timed out")) (.err (.CanNotRead "timed out")) rfl rfl rfl rfl

end BitcoinNode
