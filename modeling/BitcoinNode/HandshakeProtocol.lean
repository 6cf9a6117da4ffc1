import BitcoinNode.AwaitedMessages
import BitcoinNode.Handshake
import BitcoinNode.Lib.Duplex

/-! The handshake of one node of this program with another. Each of them waits for what the other sends;
in whatever pieces it arrives, they come to the same end. -/
namespace BitcoinNode

structure VersionMessage where
  header : HeaderMessage
  payload : VersionPayload

/-- A node in a handshake: its configuration, both addresses of the connection, and what the clock shows
and what is drawn for its version message. -/
structure Endpoint where
  config : Settings.Config
  socketAddr : SocketAddr
  localIpAddr : SocketAddr
  timestamp : Int64
  nonce : UInt64

section Calls

variable [Crates]

def HeaderMessage.writeTo (h : HeaderMessage) : Proc MessageStream String Unit := do
  let header ← Proc.lift h.toLeBytes.widen
  MessageStream.writeAll header

def writeVerackMessage : Proc MessageStream String Unit := (HeaderMessage.new "verack" none).writeTo

def writeSendheadersMessage : Proc MessageStream String Unit := (HeaderMessage.new "sendheaders" none).writeTo

def readVerackMessage : Proc MessageStream String HeaderMessage := HeaderMessage.readFrom "verack" none

def VersionMessage.writeTo (m : VersionMessage) : Proc MessageStream String Unit := do
  let header ← Proc.lift m.header.toLeBytes.widen
  MessageStream.writeAll (header ++ m.payload.toLeBytes)

def VersionMessage.readFrom : Proc MessageStream String VersionMessage := do
  let header ← HeaderMessage.readFrom "version" none
  let bufferNum ← MessageStream.readExact header.payloadSize.toNat
  let (payload, _) ← Proc.lift (VersionPayload.fromLeBytes bufferNum.val 0)
  return ⟨header, payload⟩

namespace Endpoint

def getVersionMessage (e : Endpoint) : VersionMessage :=
  let payload := getVersionPayload e.config e.socketAddr e.localIpAddr e.timestamp e.nonce
  ⟨⟨e.config.startString, "version", UInt32.ofNat payload.toLeBytes.length,
    getChecksum payload.toLeBytes⟩, payload⟩

/-- What follows once the connection is made. -/
def connectToNode (e : Endpoint) : Proc MessageStream String Unit := do
  e.getVersionMessage.writeTo
  let _ ← VersionMessage.readFrom
  writeVerackMessage
  let _ ← readVerackMessage
  writeSendheadersMessage

/-- The handshake of `handleIncomingConnection`. -/
def handleIncomingConnection (e : Endpoint) : Proc MessageStream NodeCustomErrors Unit := do
  let _ ← VersionMessage.readFrom.mapErr .CanNotRead
  e.getVersionMessage.writeTo.mapErr .WriteNodeError
  let _ ← readVerackMessage.mapErr .CanNotRead
  writeVerackMessage.mapErr .WriteNodeError

end Endpoint

end Calls

namespace MessageStream

/-- With more in the stream, what waited has written no less, and what came out does so with the rest left. -/
inductive Later (eof : ε) (early late : Outcome ε α × MessageStream) (more : List UInt8) : Prop where
  | waits (stuck : early.1 = Outcome.fail eof) (written : early.2.written <+: late.2.written)
  | over (rest : List UInt8) (ended : early.1 ≠ Outcome.fail eof) (left : early.2.incoming = [rest])
      (same : late = (early.1, ⟨[rest ++ more], early.2.written⟩))

/-- It waits for what has not arrived, with the error `eof` for the end of what has. -/
def Patient (eof : ε) (m : Proc MessageStream ε α) : Prop :=
  ∀ arrived more written, written <+: (m.run ⟨[arrived], written⟩).2.written ∧
    Later eof (m.run ⟨[arrived], written⟩) (m.run ⟨[arrived ++ more], written⟩) more

variable {eof : ε}

theorem Patient.run {m : Proc MessageStream ε α} (patient : Patient eof m) {arrived rest : List UInt8}
    {written written' : List (List UInt8)} {result : Outcome ε α}
    (ran : m.run ⟨[arrived], written⟩ = (result, ⟨[rest], written'⟩)) (ended : result ≠ Outcome.fail eof)
    (more : List UInt8) : m.run ⟨[arrived ++ more], written⟩ = (result, ⟨[rest ++ more], written'⟩) := by
  obtain ⟨_, later⟩ := patient arrived more written
  rw [ran] at later
  rcases later with ⟨stuck, _⟩ | ⟨rest', _, left, same⟩
  · exact absurd stuck ended
  · cases left
    exact same

theorem Patient.below {m : Proc MessageStream ε α} (patient : Patient eof m) {arrived whole : List UInt8}
    {written : List (List UInt8)} {result : Outcome ε α} {s : MessageStream}
    (ran : m.run ⟨[whole], written⟩ = (result, s)) (less : arrived <+: whole) :
    (m.run ⟨[arrived], written⟩).1 = result ∨ (m.run ⟨[arrived], written⟩).1 = Outcome.fail eof := by
  obtain ⟨more, rfl⟩ := less
  obtain ⟨_, later⟩ := patient arrived more written
  rw [ran] at later
  rcases later with ⟨stuck, _⟩ | ⟨_, _, _, same⟩
  · exact .inr stuck
  · exact .inl (Prod.mk.inj same).1.symm

theorem Later.of_same {result : Outcome ε α} {rest more : List UInt8} {written : List (List UInt8)} :
    Later eof (result, ⟨[rest], written⟩) (result, ⟨[rest ++ more], written⟩) more := by
  by_cases stuck : result = Outcome.fail eof
  · exact .waits stuck List.prefix_rfl
  · exact .over rest stuck rfl rfl

theorem Patient.lift (m : Outcome ε α) : Patient eof (Proc.lift m : Proc MessageStream ε α) :=
  fun _ _ _ => ⟨List.prefix_rfl, .of_same⟩

theorem Patient.pure (a : α) : Patient eof (Pure.pure a : Proc MessageStream ε α) :=
  fun _ _ _ => ⟨List.prefix_rfl, .of_same⟩

theorem Patient.written {m : Proc MessageStream ε α} (patient : Patient eof m) (arrived more : List UInt8)
    (written : List (List UInt8)) :
    (m.run ⟨[arrived], written⟩).2.written <+: (m.run ⟨[arrived ++ more], written⟩).2.written := by
  obtain ⟨_, later⟩ := patient arrived more written
  rcases later with ⟨_, wrote⟩ | ⟨rest, _, _, same⟩
  · exact wrote
  · rw [same]

theorem Patient.left {m : Proc MessageStream ε α} (patient : Patient eof m) {arrived : List UInt8}
    {written : List (List UInt8)} {a : α} {s : MessageStream} (ran : m.run ⟨[arrived], written⟩ = (.ok a, s)) :
    ∃ rest, s.incoming = [rest] := by
  obtain ⟨_, later⟩ := patient arrived [] written
  rw [ran] at later
  rcases later with ⟨stuck, _⟩ | ⟨rest, _, left, _⟩
  · cases stuck
  · exact ⟨rest, left⟩

theorem Patient.bind {m : Proc MessageStream ε α} {f : α → Proc MessageStream ε β} (first : Patient eof m)
    (rest : ∀ a, Patient eof (f a)) : Patient eof (m >>= f) := by
  intro arrived more written
  obtain ⟨grows, later⟩ := first arrived more written
  rw [Proc.run_bind, Proc.run_bind]
  rcases early : m.run ⟨[arrived], written⟩ with ⟨result, incoming, wrote⟩
  rw [early] at grows later
  rcases later with ⟨stuck, on⟩ | ⟨left, ended, here, same⟩
  · -- `m` waits; whatever goes on later writes behind what is written now
    obtain rfl : result = Outcome.fail eof := stuck
    refine ⟨grows, .waits rfl ?_⟩
    rcases late : m.run ⟨[arrived ++ more], written⟩ with ⟨_ | a, incoming', wrote'⟩ <;> rw [late] at on
    · exact on
    · obtain ⟨left, rfl⟩ : ∃ left, incoming' = [left] := first.left late
      exact on.trans (rest a left [] wrote').1
  · obtain rfl : incoming = [left] := here
    rw [same]
    cases result with
    | error e => exact ⟨grows, .over left (fun same => ended (by cases same; rfl)) rfl rfl⟩
    | ok a =>
      obtain ⟨moreWritten, later⟩ := rest a left more wrote
      exact ⟨grows.trans moreWritten, later⟩

theorem Patient.mapErr {m : Proc MessageStream ε α} (patient : Patient eof m) (f : ε → ε') :
    Patient (f eof) (m.mapErr f) := by
  intro arrived more written
  obtain ⟨grows, later⟩ := patient arrived more written
  refine ⟨grows, ?_⟩
  rcases later with ⟨stuck, wrote⟩ | ⟨rest, _, left, same⟩
  · exact .waits (congrArg (Outcome.mapErr f) stuck) wrote
  · rcases early : m.run ⟨[arrived], written⟩ with ⟨result, incoming, wrote⟩
    rw [early] at left same
    obtain rfl : incoming = [rest] := left
    simp only [Proc.mapErr, early, same]
    exact .of_same

theorem Patient.writeAll (message : List UInt8) (eof : String) : Patient eof (writeAll message) :=
  fun _ _ written => ⟨List.prefix_append written [message], .of_same⟩

/-- What it does is the same whatever the stream holds, and leaves the stream as it is. -/
def Unread (m : Proc MessageStream ε α) : Prop :=
  ∀ written, ∃ result sent, ∀ incoming, m.run ⟨incoming, written⟩ = (result, ⟨incoming, written ++ sent⟩)

theorem Unread.patient {m : Proc MessageStream ε α} (unread : Unread m) : Patient eof m := by
  intro arrived more written
  obtain ⟨result, sent, ran⟩ := unread written
  rw [ran, ran]
  exact ⟨List.prefix_append _ _, .of_same⟩

theorem Unread.lift (m : Outcome ε α) : Unread (Proc.lift m : Proc MessageStream ε α) :=
  fun written => ⟨m, [], fun incoming => by rw [List.append_nil]; rfl⟩

theorem Unread.writeAll (message : List UInt8) : Unread (writeAll message) :=
  fun _ => ⟨.ok (), [message], fun _ => rfl⟩

theorem Unread.bind {m : Proc MessageStream ε α} {f : α → Proc MessageStream ε β} (first : Unread m)
    (rest : ∀ a, Unread (f a)) : Unread (m >>= f) := by
  intro written
  obtain ⟨result, sent, ran⟩ := first written
  cases result with
  | error e => exact ⟨.error e, sent, fun incoming => Proc.run_bind_error f (ran incoming)⟩
  | ok a =>
    obtain ⟨result, more, later⟩ := rest a (written ++ sent)
    refine ⟨result, sent ++ more, fun incoming => ?_⟩
    rw [Proc.run_bind_ok f (ran incoming), later, List.append_assoc]

theorem Unread.mapErr {m : Proc MessageStream ε α} (unread : Unread m) (f : ε → ε') : Unread (m.mapErr f) := by
  intro written
  obtain ⟨result, sent, ran⟩ := unread written
  exact ⟨Outcome.mapErr f result, sent, fun incoming => by rw [Proc.run_map_err, ran]⟩

theorem read_exact_written (n : Nat) : (readExact n).Keeps MessageStream.written := by
  refine .bind (fun s => rfl) fun result => ?_
  cases result with
  | ok bytes => exact .pure bytes
  | error err => exact .lift _

/-- The error of a read that wants more than has arrived. -/
def unexpectedEof : String := IoError.UnexpectedEof.fmt

theorem Patient.readExact (n : Nat) : Patient unexpectedEof (readExact n) := by
  intro arrived more written
  have kept (arrived : List UInt8) : ((MessageStream.readExact n).run ⟨[arrived], written⟩).2.written = written :=
    read_exact_written n _
  rw [kept]
  refine ⟨List.prefix_rfl, ?_⟩
  by_cases enough : n ≤ arrived.length
  · have ran (more : List UInt8) : (MessageStream.readExact n).run ⟨[arrived ++ more], written⟩ =
        (.ok ⟨arrived.take n, List.length_take_of_le enough⟩, ⟨[arrived.drop n ++ more], written⟩) := by
      have split : arrived ++ more = arrived.take n ++ (arrived.drop n ++ more) := by
        rw [← List.append_assoc, List.take_append_drop]
      rw [split]
      exact read_exact_front ⟨_, List.length_take_of_le enough⟩ _ _ _
    have early := ran []
    rw [List.append_nil, List.append_nil] at early
    rw [early, ran more]
    exact .of_same
  · have short := Socket.read_exact_short [] enough
    rw [if_pos rfl] at short
    have zoomed : (Proc.zoom incoming (fun incoming s => { s with incoming }) (Socket.readExact n)).run
        ⟨[arrived], written⟩ = (Outcome.fail .UnexpectedEof, ⟨[], written⟩) := by
      rw [Proc.run_zoom, short]
    have early : (MessageStream.readExact n).run ⟨[arrived], written⟩ = (Outcome.fail unexpectedEof, ⟨[], written⟩) := by
      rw [MessageStream.readExact, Proc.run_bind_ok _ (Proc.run_attempt_err zoomed)]
      rfl
    rw [early]
    refine .waits rfl ?_
    rw [kept]

theorem read_exact_left {n : Nat} {s s' : MessageStream} {bytes : U8Array n}
    (read : (MessageStream.readExact n).run s = (.ok bytes, s')) :
    s'.incoming.flatten.length + n = s.incoming.flatten.length := by
  obtain ⟨result, t, first, rest⟩ := Proc.run_bind_eq_ok read
  cases result with
  | error err => cases (Prod.mk.inj rest).1
  | ok word =>
    cases rest
    rcases here : (Socket.readExact n).run s.incoming with ⟨(e | _ | _) | word, node⟩ <;>
      simp [Proc.attempt, Outcome.attempt, Outcome.panic, Outcome.abort, here] at first
    obtain ⟨rfl, rfl⟩ := first
    have split := Socket.read_exact_flatten here
    rw [split]
    simp [Nat.add_comm]

end MessageStream

section Calls

variable [Crates]

open MessageStream

theorem write_pong_message_patient (payload : List UInt8) : Patient unexpectedEof (writePongMessage payload) :=
  .bind (.lift _) fun message => .writeAll message unexpectedEof

theorem skip_messages_patient (name : String) (finish : Option (Nat → Bool)) (fuel i : Nat)
    (header : HeaderMessage) : Patient unexpectedEof (HeaderMessage.skipMessages name finish fuel i header) := by
  induction fuel generalizing i header with
  | zero => exact .lift _
  | succ fuel ih =>
    rw [HeaderMessage.skipMessages]
    by_cases skipped : header.commandName ≠ name ∧ isTerminated finish i = false
    · rw [if_pos skipped]
      have next : Patient unexpectedEof (do
          let bufferNum ← MessageStream.readExact 24
          let header ← Proc.lift (HeaderMessage.fromLeBytes bufferNum)
          HeaderMessage.skipMessages name finish fuel (i + 1) header) :=
        .bind (.readExact _) fun bufferNum => .bind (.lift _) fun header => ih (i + 1) header
      refine .bind (.readExact _) fun payload => ?_
      dsimp only
      split_ifs
      · exact .bind (write_pong_message_patient payload.val) fun _ => next
      · exact next
    · rw [if_neg skipped]
      exact .pure header

theorem write_pong_message_incoming {payload : List UInt8} {s s' : MessageStream}
    (answered : (writePongMessage payload).run s = (.ok (), s')) : s'.incoming = s.incoming := by
  have kept : (writePongMessage payload).Keeps MessageStream.incoming :=
    .bind (.lift _) fun message => .modify fun _ => rfl
  have same := kept s
  rwa [answered] at same

theorem skip_messages_fuel (name : String) (finish : Option (Nat → Bool)) {fuel fuel' i : Nat}
    (header : HeaderMessage) {s : MessageStream} (enough : s.incoming.flatten.length < fuel)
    (enough' : s.incoming.flatten.length < fuel') :
    (HeaderMessage.skipMessages name finish fuel i header).run s =
      (HeaderMessage.skipMessages name finish fuel' i header).run s := by
  induction fuel generalizing fuel' i header s with
  | zero => omega
  | succ fuel ih =>
    cases fuel' with
    | zero => omega
    | succ fuel' =>
      rw [HeaderMessage.skipMessages, HeaderMessage.skipMessages]
      by_cases skipped : header.commandName ≠ name ∧ isTerminated finish i = false
      · rw [if_pos skipped, if_pos skipped]
        refine Proc.run_bind_congr fun payload t read => ?_
        have left := read_exact_left read
        have next {t' : MessageStream} (stays : t'.incoming = t.incoming) : (do
            let bufferNum ← MessageStream.readExact 24
            let header ← Proc.lift (HeaderMessage.fromLeBytes bufferNum)
            HeaderMessage.skipMessages name finish fuel (i + 1) header).run t' = (do
            let bufferNum ← MessageStream.readExact 24
            let header ← Proc.lift (HeaderMessage.fromLeBytes bufferNum)
            HeaderMessage.skipMessages name finish fuel' (i + 1) header).run t' := by
          refine Proc.run_bind_congr fun bufferNum t'' read' => Proc.run_bind_congr fun header u decoded => ?_
          have left' := read_exact_left read'
          rw [stays] at left'
          obtain ⟨_, rfl⟩ := Prod.mk.inj decoded
          exact ih header (by omega) (by omega)
        dsimp only
        split_ifs
        · refine Proc.run_bind_congr fun _ t' answered => next ?_
          exact write_pong_message_incoming answered
        · exact next rfl
      · rw [if_neg skipped, if_neg skipped]

theorem read_from_patient (commandName : String) (finish : Option (Nat → Bool)) :
    Patient unexpectedEof (HeaderMessage.readFrom commandName finish) := by
  refine .bind (.lift _) fun name => .bind (.lift _) fun headerCommandName =>
    .bind (.readExact _) fun bufferNum => .bind (.lift _) fun header => ?_
  intro arrived more written
  have early : (HeaderMessage.skipMessages headerCommandName finish ([arrived].flatten.length + 1) 0 header).run
      ⟨[arrived], written⟩ =
      (HeaderMessage.skipMessages headerCommandName finish ([arrived ++ more].flatten.length + 1) 0 header).run
        ⟨[arrived], written⟩ :=
    skip_messages_fuel _ _ _ (Nat.lt_succ_self _) (by simp)
  have patient := skip_messages_patient headerCommandName finish ([arrived ++ more].flatten.length + 1) 0 header
    arrived more written
  rw [← early] at patient
  exact patient

theorem VersionMessage.read_from_patient : Patient unexpectedEof VersionMessage.readFrom :=
  .bind (BitcoinNode.read_from_patient _ _) fun _ => .bind (.readExact _) fun _ => .bind (.lift _) fun _ => .pure _

omit [Crates] in
theorem HeaderMessage.write_to_unread (h : HeaderMessage) : Unread h.writeTo := .bind (.lift _) fun _ => .writeAll _

omit [Crates] in
theorem VersionMessage.write_to_unread (m : VersionMessage) : Unread m.writeTo :=
  .bind (.lift _) fun _ => .writeAll _

namespace Endpoint

variable (e : Endpoint)

theorem connect_to_node_patient : Patient unexpectedEof e.connectToNode :=
  .bind e.getVersionMessage.write_to_unread.patient fun _ => .bind VersionMessage.read_from_patient fun _ =>
    .bind (HeaderMessage.write_to_unread _).patient fun _ => .bind (read_from_patient _ _) fun _ =>
      (HeaderMessage.write_to_unread _).patient

theorem handle_incoming_connection_patient :
    Patient (.CanNotRead unexpectedEof) e.handleIncomingConnection :=
  .bind (VersionMessage.read_from_patient.mapErr _) fun _ =>
    .bind (e.getVersionMessage.write_to_unread.mapErr _).patient fun _ =>
      .bind ((read_from_patient _ _).mapErr _) fun _ => ((HeaderMessage.write_to_unread _).mapErr _).patient

end Endpoint

theorem HeaderMessage.write_to_sends {command : String} (fits : command.toUTF8.toList.length ≤ 12) :
    ∃ m : PeerMessage, commandNameToBytes command = .ok m.command ∧ m.payload = [] ∧ ∀ incoming written,
      (new command none).writeTo.run ⟨incoming, written⟩ =
        (.ok (), ⟨incoming, written ++ [m.header.val]⟩) := by
  obtain ⟨name, named⟩ := command_name_to_bytes_of_fits fits
  refine ⟨⟨BitcoinNode.startString, name, checksumEmptyPayload, [], by decide⟩, named, rfl, fun incoming written => ?_⟩
  rw [writeTo, toLeBytes, new, named]
  rfl

theorem Endpoint.version_sends (e : Endpoint)
    (fits : e.getVersionMessage.payload.toLeBytes.length < 2 ^ 32) :
    ∃ m : PeerMessage, commandNameToBytes "version" = .ok m.command ∧
      m.payload = e.getVersionMessage.payload.toLeBytes ∧ ∀ incoming written,
      e.getVersionMessage.writeTo.run ⟨incoming, written⟩ =
        (.ok (), ⟨incoming, written ++ [m.header.val ++ m.payload]⟩) := by
  obtain ⟨name, named⟩ := @command_name_to_bytes_of_fits "version" (by decide +kernel)
  let m : PeerMessage := ⟨e.config.startString, name, getChecksum e.getVersionMessage.payload.toLeBytes,
    e.getVersionMessage.payload.toLeBytes, fits⟩
  have header : e.getVersionMessage.header.toLeBytes = .ok m.header.val := by
    rw [HeaderMessage.toLeBytes, show e.getVersionMessage.header.commandName = "version" from rfl, named]
    rfl
  refine ⟨m, named, rfl, fun incoming written => ?_⟩
  rw [VersionMessage.writeTo, header, Outcome.widen_ok, Proc.run_bind_ok _ (Proc.run_lift _ _)]
  rfl

theorem read_from_first {m : PeerMessage} {commandName : String}
    (named : commandNameToBytes commandName = .ok m.command) :
    ∃ text, ∀ back later written, (HeaderMessage.readFrom commandName none).run
      ⟨(m.header.val ++ back) :: later, written⟩ = (.ok (m.decoded text), ⟨back :: later, written⟩) := by
  obtain ⟨text, padded⟩ : ∃ text, fromUtf8 m.command.val = .ok text := by
    have name := named
    rw [commandNameToBytes] at name
    split_ifs at name with fits
    · rw [← Except.ok.inj name]
      exact ⟨_, from_utf8_padded commandName _⟩
    · cases name
  refine ⟨text, fun back later written => ?_⟩
  have header := MessageStream.read_exact_front m.header back later written
  rw [HeaderMessage.readFrom, named, Outcome.widen_ok, Proc.run_bind_ok _ (Proc.run_lift _ _), padded,
    Proc.run_bind_ok _ (Proc.run_lift _ _), Proc.run_bind_ok _ header, m.from_le_bytes_decoded padded,
    Proc.run_bind_ok _ (Proc.run_lift _ _), Proc.run_bind_ok _ (Proc.run_get _), HeaderMessage.skipMessages,
    if_neg fun wanted => wanted.1 rfl]
  rfl

theorem read_version_first {m : PeerMessage} (named : commandNameToBytes "version" = .ok m.command)
    {payload : VersionPayload} {stop : Nat} (decoded : VersionPayload.fromLeBytes m.payload 0 = .ok (payload, stop)) :
    ∃ header, ∀ back later written, VersionMessage.readFrom.run
      ⟨(m.header.val ++ m.payload ++ back) :: later, written⟩ = (.ok ⟨header, payload⟩, ⟨back :: later, written⟩) := by
  obtain ⟨text, first⟩ := read_from_first named
  refine ⟨m.decoded text, fun back later written => ?_⟩
  have size : (m.decoded text).payloadSize.toNat = m.payload.length := UInt32.toNat_ofNat_of_lt' m.sized
  have body := MessageStream.read_exact_front (n := (m.decoded text).payloadSize.toNat) ⟨m.payload, size.symm⟩ back later
    written
  rw [List.append_assoc, VersionMessage.readFrom, Proc.run_bind_ok _ (first _ later written),
    Proc.run_bind_ok _ body, decoded, Proc.run_bind_ok _ (Proc.run_lift _ _)]
  rfl

omit [Crates] in
theorem flatten_prefix {early late : List (List UInt8)} (wrote : early <+: late) :
    early.flatten <+: late.flatten := by
  obtain ⟨more, rfl⟩ := wrote
  rw [List.flatten_append]
  exact List.prefix_append _ _

/-- The version message is short enough for its header, and the other node can decode it. -/
structure Endpoint.Legible (e : Endpoint) : Prop where
  sized : e.getVersionMessage.payload.toLeBytes.length < 2 ^ 32
  decoded : ∃ payload stop, VersionPayload.fromLeBytes e.getVersionMessage.payload.toLeBytes 0 = .ok (payload, stop)

theorem Endpoint.legible_of_sixteen {e : Endpoint} (long : e.config.userAgent.toUTF8.toList.length = 16) :
    e.Legible := by
  have counts : (CompactSizeUint.new 16).Counts e.config.userAgent.toUTF8.toList.length :=
    long.symm ▸ CompactSizeUint.new_counts (n := 16) (by decide)
  refine ⟨?_, ?_⟩
  · have sixteen : (CompactSizeUint.new 16).marshalling.length = 1 := by decide +kernel
    have text : e.config.userAgent.toByteArray.toList.length = 16 := long
    simp [getVersionMessage, getVersionPayload, VersionPayload.toLeBytes, text, sixteen]
  · obtain ⟨stop, read⟩ := VersionPayload.round_trips_of_counts (p := e.getVersionMessage.payload) counts
    exact ⟨_, stop, read⟩

/-- What a node has written once this has arrived: the one that connects, and the one that is connected to. -/
def Endpoint.writes (client server : Endpoint) : (serves : Bool) → List UInt8 → List UInt8
  | false, arrived => (client.connectToNode.run ⟨[arrived], []⟩).2.written.flatten
  | true, arrived => (server.handleIncomingConnection.run ⟨[arrived], []⟩).2.written.flatten

theorem Endpoint.writes_monotone (client server : Endpoint) : Duplex.Monotone (writes client server) := by
  intro side early late before
  obtain ⟨more, rfl⟩ := before
  cases side with
  | false => exact flatten_prefix (client.connect_to_node_patient.written early more [])
  | true => exact flatten_prefix (server.handle_incoming_connection_patient.written early more [])

/-- The messages of a handshake, and how far each of them brings the node that reads it. -/
structure Exchanged (client server : Endpoint) (version answer verack sendheaders : PeerMessage) : Prop where
  opens : version.header.val ++ version.payload <+: client.writes server false []
  replies : answer.header.val ++ answer.payload <+:
    client.writes server true (version.header.val ++ version.payload)
  acknowledges : version.header.val ++ version.payload ++ verack.header.val <+:
    client.writes server false (answer.header.val ++ answer.payload)
  connects : client.connectToNode.run ⟨[answer.header.val ++ answer.payload ++ verack.header.val], []⟩ =
    (.ok (), ⟨[[]], [version.header.val ++ version.payload, verack.header.val, sendheaders.header.val]⟩)
  accepts : ∀ more, server.handleIncomingConnection.run
      ⟨[version.header.val ++ version.payload ++ (verack.header.val ++ more)], []⟩ =
    (.ok (), ⟨[more], [answer.header.val ++ answer.payload, verack.header.val]⟩)

theorem Endpoint.Legible.exchanged {client server : Endpoint} (legible : client.Legible) (legible' : server.Legible) :
    ∃ version answer verack sendheaders, commandNameToBytes "sendheaders" = .ok sendheaders.command ∧
      Exchanged client server version answer verack sendheaders := by
  obtain ⟨version, named, versionPayload, opens⟩ := client.version_sends legible.sized
  obtain ⟨answer, named', answerPayload, replies⟩ := server.version_sends legible'.sized
  obtain ⟨verack, verackNamed, verackPayload, acknowledges⟩ :=
    @HeaderMessage.write_to_sends _ "verack" (by decide +kernel)
  obtain ⟨sendheaders, sendheadersNamed, _, announces⟩ :=
    @HeaderMessage.write_to_sends _ "sendheaders" (by decide +kernel)
  obtain ⟨payload, stop, decoded⟩ := legible.decoded
  obtain ⟨payload', stop', decoded'⟩ := legible'.decoded
  obtain ⟨header, read⟩ := read_version_first named (by rw [versionPayload]; exact decoded)
  obtain ⟨header', read'⟩ := read_version_first named' (by rw [answerPayload]; exact decoded')
  obtain ⟨text, first⟩ := read_from_first verackNamed
  -- What is left to each of the two behind a message that it has written.
  have middle : Patient unexpectedEof (do
      let _ ← VersionMessage.readFrom
      writeVerackMessage
      let _ ← readVerackMessage
      writeSendheadersMessage) :=
    .bind VersionMessage.read_from_patient fun _ => .bind (HeaderMessage.write_to_unread _).patient fun _ =>
      .bind (read_from_patient _ _) fun _ => (HeaderMessage.write_to_unread _).patient
  have last : Patient unexpectedEof (do
      let _ ← readVerackMessage
      writeSendheadersMessage) :=
    .bind (read_from_patient _ _) fun _ => (HeaderMessage.write_to_unread _).patient
  have last' : Patient (.CanNotRead unexpectedEof) (do
      let _ ← readVerackMessage.mapErr .CanNotRead
      writeVerackMessage.mapErr .WriteNodeError : Proc MessageStream NodeCustomErrors Unit) :=
    .bind ((read_from_patient _ _).mapErr _) fun _ => ((HeaderMessage.write_to_unread _).mapErr _).patient
  have greeted (arrived : List UInt8) : client.connectToNode.run ⟨[arrived], []⟩ = (do
      let _ ← VersionMessage.readFrom
      writeVerackMessage
      let _ ← readVerackMessage
      writeSendheadersMessage : Proc MessageStream String Unit).run
        ⟨[arrived], [version.header.val ++ version.payload]⟩ := by
    rw [Endpoint.connectToNode, Proc.run_bind_ok _ (opens _ _)]
    rfl
  have answered (back : List UInt8) :
      client.connectToNode.run ⟨[answer.header.val ++ answer.payload ++ back], []⟩ = (do
        let _ ← readVerackMessage
        writeSendheadersMessage : Proc MessageStream String Unit).run
          ⟨[back], [version.header.val ++ version.payload, verack.header.val]⟩ := by
    rw [greeted, Proc.run_bind_ok _ (read' back [] _), writeVerackMessage, Proc.run_bind_ok _ (acknowledges _ _)]
    rfl
  have replied (back : List UInt8) :
      server.handleIncomingConnection.run ⟨[version.header.val ++ version.payload ++ back], []⟩ = (do
        let _ ← readVerackMessage.mapErr .CanNotRead
        writeVerackMessage.mapErr .WriteNodeError : Proc MessageStream NodeCustomErrors Unit).run
          ⟨[back], [answer.header.val ++ answer.payload]⟩ := by
    rw [Endpoint.handleIncomingConnection, Proc.run_bind_ok _ (Proc.run_map_err_ok (read back [] _)),
      Proc.run_bind_ok _ (Proc.run_map_err_ok (replies _ _))]
    rfl
  refine ⟨version, answer, verack, sendheaders, sendheadersNamed, ?_, ?_, ?_, ?_, fun more => ?_⟩
  · have grows := (middle [] [] [version.header.val ++ version.payload]).1
    rw [← greeted] at grows
    simpa [Endpoint.writes] using flatten_prefix grows
  · have grows := (last' [] [] [answer.header.val ++ answer.payload]).1
    rw [← replied, List.append_nil] at grows
    simpa [Endpoint.writes] using flatten_prefix grows
  · have grows := (last [] [] [version.header.val ++ version.payload, verack.header.val]).1
    rw [← answered, List.append_nil] at grows
    simpa [Endpoint.writes] using flatten_prefix grows
  · have here := first [] [] [version.header.val ++ version.payload, verack.header.val]
    rw [List.append_nil] at here
    rw [answered, readVerackMessage, Proc.run_bind_ok _ here]
    exact announces _ _
  · have here := first more [] [answer.header.val ++ answer.payload]
    rw [replied, readVerackMessage, Proc.run_bind_ok _ (Proc.run_map_err_ok here)]
    exact Proc.run_map_err_ok (acknowledges _ _)

/-- Two nodes that can decode each other's version message. Whatever has arrived, neither has failed; and once
everything has arrived, both have come to the end of the handshake, and only the sendheaders message is
left unread. -/
theorem handshake_completes {client server : Endpoint} (legible : client.Legible) (legible' : server.Legible)
    (schedule : List (Bool × Nat)) :
    let arrived := execute (Duplex.step (client.writes server)) Duplex.start schedule
    let connecting := client.connectToNode.run ⟨[arrived false], []⟩
    let accepting := server.handleIncomingConnection.run ⟨[arrived true], []⟩
    (connecting.1 = .ok () ∨ connecting.1 = Outcome.fail unexpectedEof) ∧
      (accepting.1 = .ok () ∨ accepting.1 = Outcome.fail (.CanNotRead unexpectedEof)) ∧
      (Duplex.Settled (client.writes server) arrived → connecting.1 = .ok () ∧ accepting.1 = .ok () ∧
        connecting.2.incoming.flatten = [] ∧
        ∃ message : PeerMessage, commandNameToBytes "sendheaders" = .ok message.command ∧
          accepting.2.incoming.flatten = message.header.val) ∧
      ∃ more, Duplex.Settled (client.writes server) (execute (Duplex.step (client.writes server)) arrived more) := by
  obtain ⟨version, answer, verack, sendheaders, named, exchanged⟩ := legible.exchanged legible'
  have monotone := client.writes_monotone server
  let final (serves : Bool) : List UInt8 :=
    if serves then version.header.val ++ version.payload ++ (verack.header.val ++ sendheaders.header.val)
    else answer.header.val ++ answer.payload ++ verack.header.val
  have connects : client.writes server false (final false) = final true := by
    simp only [Endpoint.writes, final, Bool.false_eq_true, if_false, exchanged.connects]
    simp
  have accepts (more : List UInt8) : client.writes server true
      (version.header.val ++ version.payload ++ (verack.header.val ++ more)) = final false := by
    simp only [Endpoint.writes, exchanged.accepts]
    simp [final]
  have settled : Duplex.Settled (client.writes server) final := by
    intro side
    cases side with
    | false => exact (accepts _).symm
    | true => exact connects.symm
  have replied : Duplex.Ladder (client.writes server) false (answer.header.val ++ answer.payload) :=
    .climb (.climb (.ground false) exchanged.opens) exchanged.replies
  have answered : Duplex.Ladder (client.writes server) false (final false) := by
    refine .climb (.climb replied exchanged.acknowledges) ?_
    have acknowledged := accepts []
    rw [List.append_nil] at acknowledged
    rw [← acknowledged]
    exact List.prefix_rfl
  have ladders (side : Bool) : Duplex.Ladder (client.writes server) side (final side) := by
    cases side with
    | false => exact answered
    | true => exact .climb answered (connects ▸ List.prefix_rfl)
  obtain ⟨once, reached⟩ := Duplex.exists_settled monotone settled ladders
  have whole : Duplex.Settled (client.writes server) (execute (Duplex.step (client.writes server)) Duplex.start once) :=
    reached ▸ settled
  intro arrived connecting accepting
  have below := Duplex.execute_below monotone settled (fun _ => List.nil_prefix) schedule
  obtain ⟨joined, unique⟩ := Duplex.settled_unique monotone whole schedule
  refine ⟨?_, ?_, fun done => ?_, once, ?_⟩
  · exact client.connect_to_node_patient.below exchanged.connects (below false)
  · exact server.handle_incoming_connection_patient.below (exchanged.accepts sendheaders.header.val) (below true)
  · have all : arrived = final := (unique done).trans reached
    have connected := exchanged.connects
    have accepted := exchanged.accepts sendheaders.header.val
    simp only [connecting, accepting, all, final, if_true, Bool.false_eq_true, if_false, connected, accepted]
    exact ⟨trivial, trivial, rfl, sendheaders, named, List.append_nil _⟩
  · rw [← execute_append, joined]
    exact whole

end Calls

/-- A handshake of two nodes with the same configuration file. -/
theorem handshake_completes_sixteen :
    ∃ client server : Endpoint, ∃ schedule,
      Settings.Config.fromReader (Settings.fileOf ((.userAgent, "/node-rustico:1/") :: Settings.agentless)) =
        .ok client.config ∧ server.config = client.config ∧
      let arrived := execute (Duplex.step (@Endpoint.writes Crates.standard client server)) Duplex.start schedule
      ((@Endpoint.connectToNode Crates.standard client).run ⟨[arrived false], []⟩).1 = .ok () ∧
        ((@Endpoint.handleIncomingConnection Crates.standard server).run ⟨[arrived true], []⟩).1 = .ok () := by
  obtain ⟨config, read, userAgent⟩ := @Settings.from_reader_user_agent "/node-rustico:1/" (by decide +kernel)
  have long : config.userAgent.toUTF8.toList.length = 16 := by
    rw [userAgent]
    decide +kernel
  let client : Endpoint := ⟨config, .v4 54 89 113 236, .v4 192 168 0 58, 1683223805, 7⟩
  let server : Endpoint := ⟨config, .v4 192 168 0 58, .v4 54 89 113 236, 1683223806, 8⟩
  have legible := @Endpoint.legible_of_sixteen Crates.standard client long
  have legible' := @Endpoint.legible_of_sixteen Crates.standard server long
  obtain ⟨_, _, _, schedule, settled⟩ := @handshake_completes Crates.standard _ _ legible legible' []
  obtain ⟨_, _, completes, _⟩ := @handshake_completes Crates.standard _ _ legible legible' schedule
  obtain ⟨connected, accepted, _⟩ := completes settled
  exact ⟨client, server, schedule, read, rfl, connected, accepted⟩

end BitcoinNode
