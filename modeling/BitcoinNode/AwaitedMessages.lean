import BitcoinNode.MessageFraming

/-! Waiting for a message. Messages with another name are skipped whole, and pings among them are
answered, until the one that is wanted comes, whose payload is left in the stream. -/
namespace BitcoinNode

/-- A connection: the bytes to come, and what was written. Writing succeeds. -/
structure MessageStream where
  incoming : Socket
  written : List (List UInt8)

namespace MessageStream

def readExact (n : Nat) : Proc MessageStream String (U8Array n) := do
  match ← Proc.attempt (Proc.zoom incoming (fun incoming s => { s with incoming }) (Socket.readExact n)) with
  | .ok bytes => return bytes
  | .error err => Proc.lift (Outcome.fail err.fmt)

def writeAll (message : List UInt8) : Proc MessageStream String Unit :=
  Proc.modify fun s => { s with written := s.written ++ [message] }

end MessageStream

section Await

variable [Crates]

def writePongMessage (payload : List UInt8) : Proc MessageStream String Unit := do
  let message ← Proc.lift (framed ("pong", payload)).widen
  MessageStream.writeAll message

/-- The flag belongs to another thread, which may set it at any moment: `flag i` is what is found in it
when it is read for the time `i`. -/
def isTerminated (finish : Option (Nat → Bool)) (i : Nat) : Bool :=
  match finish with
  | some flag => flag i
  | none => false

def HeaderMessage.skipMessages (headerCommandName : String) (finish : Option (Nat → Bool)) :
    (fuel : Nat) → (i : Nat) → HeaderMessage → Proc MessageStream String HeaderMessage
  | 0, _, _ => Proc.lift Outcome.abort
  | fuel + 1, i, header =>
    if header.commandName ≠ headerCommandName ∧ isTerminated finish i = false then do
      let payload ← MessageStream.readExact header.payloadSize.toNat
      if "ping".toList <:+: header.commandName.toList then
        writePongMessage payload.val
      else pure ()
      let bufferNum ← MessageStream.readExact 24
      let header ← Proc.lift (HeaderMessage.fromLeBytes bufferNum)
      skipMessages headerCommandName finish fuel (i + 1) header
    else return header

/-- Every round takes a header from the stream. The time-out that is set before a block is awaited, and
the logs, are left out. -/
def HeaderMessage.readFrom (commandName : String) (finish : Option (Nat → Bool)) :
    Proc MessageStream String HeaderMessage := do
  let name ← Proc.lift (commandNameToBytes commandName).widen
  let headerCommandName ← Proc.lift (fromUtf8 name.val)
  let bufferNum ← MessageStream.readExact 24
  let header ← Proc.lift (HeaderMessage.fromLeBytes bufferNum)
  let s ← Proc.get
  HeaderMessage.skipMessages headerCommandName finish (s.incoming.flatten.length + 1) 0 header

end Await

theorem MessageStream.read_exact_front {n : Nat} (word : U8Array n) (back : List UInt8) (later : Socket)
    (written : List (List UInt8)) :
    (readExact n).run ⟨(word.val ++ back) :: later, written⟩ = (.ok word, ⟨back :: later, written⟩) := by
  have read := Socket.read_exact_front word back later
  have zoomed : (Proc.zoom incoming (fun incoming s => { s with incoming }) (Socket.readExact n)).run
      ⟨(word.val ++ back) :: later, written⟩ = (.ok word, ⟨back :: later, written⟩) := by
    rw [Proc.run_zoom, read]
  rw [readExact, Proc.run_bind_ok _ (Proc.run_attempt_ok zoomed)]
  rfl

/-- The header of a message whose command is this text. -/
def PeerMessage.decoded (m : PeerMessage) (commandName : String) : HeaderMessage :=
  ⟨m.startString, commandName, UInt32.ofNat m.payload.length, m.checksum⟩

theorem PeerMessage.from_le_bytes_decoded {m : PeerMessage} {commandName : String}
    (legible : fromUtf8 m.command.val = .ok commandName) :
    HeaderMessage.fromLeBytes m.header = .ok (m.decoded commandName) := by
  rw [m.from_le_bytes_header, legible]
  rfl

/-- A message whose name has `ping` in it is a ping, which is then answered. -/
structure PeerMessage.Skipped (name : U8Array 12) (m : PeerMessage) : Prop where
  legible : ∃ commandName, fromUtf8 m.command.val = .ok commandName
  other : m.command ≠ name
  ping : ∀ commandName, fromUtf8 m.command.val = .ok commandName →
    "ping".toList <:+: commandName.toList → m.name = some "ping"

theorem PeerMessage.Skipped.ping_iff {name : U8Array 12} {m : PeerMessage} (skipped : m.Skipped name)
    {commandName : String} (legible : fromUtf8 m.command.val = .ok commandName) :
    "ping".toList <:+: commandName.toList ↔ m.name = some "ping" := by
  refine ⟨skipped.ping _ legible, fun named => ?_⟩
  have cut : getHeaderCommandNameAsStr commandName = "ping" := by
    rw [PeerMessage.name, legible] at named
    exact Option.some.inj named
  have front : commandName.toList.takeWhile (· ≠ '\x00') = "ping".toList := by
    rw [← cut, getHeaderCommandNameAsStr, String.toList_ofList]
  rw [← front]
  exact (List.takeWhile_prefix _).isInfix

section Await

variable [Crates]

theorem skip_message {name : U8Array 12} {headerCommandName commandName : String} {m : PeerMessage}
    (named : fromUtf8 name.val = .ok headerCommandName) (skipped : m.Skipped name)
    (legible : fromUtf8 m.command.val = .ok commandName) {finish : Option (Nat → Bool)} {fuel i : Nat}
    (waiting : isTerminated finish i = false) {pongs : List (List UInt8)}
    (answers : ([m].filter (·.name = some "ping")).mapM (fun m => framed ("pong", m.payload)) = .ok pongs)
    (back : List UInt8) (later : Socket) (written : List (List UInt8)) :
    (HeaderMessage.skipMessages headerCommandName finish (fuel + 1) i (m.decoded commandName)).run
        ⟨(m.payload ++ back) :: later, written⟩ =
      (do
        let bufferNum ← MessageStream.readExact 24
        let header ← Proc.lift (HeaderMessage.fromLeBytes bufferNum)
        HeaderMessage.skipMessages headerCommandName finish fuel (i + 1) header).run
        ⟨back :: later, written ++ pongs⟩ := by
  have different : commandName ≠ headerCommandName := by
    rintro rfl
    refine skipped.other (Subtype.ext ?_)
    rw [← from_utf8_bytes legible, from_utf8_bytes named]
  have size : (UInt32.ofNat m.payload.length).toNat = m.payload.length := UInt32.toNat_ofNat_of_lt' m.sized
  have payload := MessageStream.read_exact_front (n := (UInt32.ofNat m.payload.length).toNat)
    ⟨m.payload, size.symm⟩ back later written
  rw [HeaderMessage.skipMessages, if_pos ⟨different, waiting⟩, PeerMessage.decoded, Proc.run_bind_ok _ payload]
  simp only [skipped.ping_iff legible]
  by_cases ping : m.name = some "ping"
  · rw [List.filter_cons_of_pos (by simpa using ping), List.filter_nil, List.mapM_cons, List.mapM_nil] at answers
    obtain ⟨message, built, answers⟩ := Outcome.bind_eq_ok.mp answers
    obtain rfl := Except.ok.inj answers
    have answered : (writePongMessage m.payload).run ⟨back :: later, written⟩ =
        (.ok (), ⟨back :: later, written ++ [message]⟩) := by
      rw [writePongMessage, built, Outcome.widen_ok, Proc.run_bind_ok _ (Proc.run_lift _ _)]
      rfl
    rw [if_pos ping, Proc.run_bind_ok _ answered]
  · rw [List.filter_cons_of_neg (by simpa using ping), List.filter_nil, List.mapM_nil] at answers
    obtain rfl := Except.ok.inj answers
    rw [if_neg ping, List.append_nil]

theorem mapM_cons_append {m : PeerMessage} {ms : List PeerMessage} {pongs : List (List UInt8)}
    (answers : ((m :: ms).filter (·.name = some "ping")).mapM (fun m => framed ("pong", m.payload)) = .ok pongs) :
    ∃ first others, ([m].filter (·.name = some "ping")).mapM (fun m => framed ("pong", m.payload)) = .ok first ∧
      (ms.filter (·.name = some "ping")).mapM (fun m => framed ("pong", m.payload)) = .ok others ∧
      pongs = first ++ others := by
  have split : (m :: ms).filter (·.name = some "ping") = [m].filter (·.name = some "ping") ++
      ms.filter (·.name = some "ping") := by
    rw [← List.filter_append, List.singleton_append]
  rw [split, List.mapM_append] at answers
  obtain ⟨first, answered, answers⟩ := Outcome.bind_eq_ok.mp answers
  obtain ⟨others, later, same⟩ := Outcome.bind_eq_ok.mp answers
  exact ⟨first, others, answered, later, (Except.ok.inj same).symm⟩

theorem skip_messages_run {name : U8Array 12} {headerCommandName : String}
    (named : fromUtf8 name.val = .ok headerCommandName) {last : PeerMessage} (wanted : last.command = name)
    {ms : List PeerMessage} (skipped : ∀ m ∈ ms, m.Skipped name) {finish : Option (Nat → Bool)} {fuel i : Nat}
    (enough : ms.length < fuel) (waiting : ∀ j < ms.length, isTerminated finish (i + j) = false)
    {pongs : List (List UInt8)}
    (answers : (ms.filter (·.name = some "ping")).mapM (fun m => framed ("pong", m.payload)) = .ok pongs)
    (back : List UInt8) (later : Socket) (written : List (List UInt8)) :
    (do
        let bufferNum ← MessageStream.readExact 24
        let header ← Proc.lift (HeaderMessage.fromLeBytes bufferNum)
        HeaderMessage.skipMessages headerCommandName finish fuel i header).run
        ⟨((PeerMessage.parts ms).flatten ++ last.header.val ++ back) :: later, written⟩ =
      (.ok (last.decoded headerCommandName), ⟨back :: later, written ++ pongs⟩) := by
  induction ms generalizing fuel i written pongs with
  | nil =>
    rw [List.filter_nil, List.mapM_nil] at answers
    obtain rfl := Except.ok.inj answers
    obtain ⟨fuel, rfl⟩ := Nat.exists_eq_add_one.mpr enough
    have header := MessageStream.read_exact_front last.header back later written
    have decoded : HeaderMessage.fromLeBytes last.header = .ok (last.decoded headerCommandName) :=
      last.from_le_bytes_decoded (by rw [wanted, named])
    rw [PeerMessage.parts, List.flatMap_nil, List.flatten_nil, List.nil_append, Proc.run_bind_ok _ header, decoded,
      Proc.run_bind_ok _ (Proc.run_lift _ _), HeaderMessage.skipMessages,
      if_neg fun different => different.1 rfl, List.append_nil]
    rfl
  | cons m ms ih =>
    obtain ⟨first, others⟩ := List.forall_mem_cons.mp skipped
    obtain ⟨fuel, rfl⟩ := Nat.exists_eq_add_one.mpr (Nat.zero_lt_of_lt enough)
    obtain ⟨commandName, legible⟩ := first.legible
    obtain ⟨pong, pongs, answered, answersLater, rfl⟩ := mapM_cons_append answers
    have header := MessageStream.read_exact_front m.header
      (m.payload ++ ((PeerMessage.parts ms).flatten ++ last.header.val ++ back)) later written
    have here : isTerminated finish i = false := by simpa using waiting 0 (Nat.succ_pos _)
    have split : (PeerMessage.parts (m :: ms)).flatten ++ last.header.val ++ back =
        m.header.val ++ (m.payload ++ ((PeerMessage.parts ms).flatten ++ last.header.val ++ back)) := by
      simp [PeerMessage.parts]
    have waitingLater : ∀ j < ms.length, isTerminated finish (i + 1 + j) = false := by
      intro j inside
      rw [Nat.add_assoc, Nat.add_comm 1]
      exact waiting (j + 1) (Nat.succ_lt_succ inside)
    have rest := ih others (Nat.lt_of_succ_lt_succ enough) waitingLater answersLater (written ++ pong)
    rw [split, Proc.run_bind_ok _ header, m.from_le_bytes_decoded legible, Proc.run_bind_ok _ (Proc.run_lift _ _),
      skip_message named first legible here answered, rest, List.append_assoc]

omit [Crates] in
theorem parts_long (ms : List PeerMessage) : ms.length ≤ (PeerMessage.parts ms).flatten.length := by
  induction ms with
  | nil => exact Nat.zero_le _
  | cons m ms ih =>
    have header : m.header.val.length = 24 := m.header.property
    have split : (PeerMessage.parts (m :: ms)).flatten =
        m.header.val ++ (m.payload ++ (PeerMessage.parts ms).flatten) := by
      simp [PeerMessage.parts]
    rw [split, List.length_append, List.length_append, header, List.length_cons]
    omega

omit [Crates] in
/-- The stream starts with a header, and a byte at least is left for each message behind it. -/
theorem starts_with_header (ms : List PeerMessage) (last : PeerMessage) (back : List UInt8) :
    ∃ (h : PeerMessage) (tail : List UInt8),
      (PeerMessage.parts ms).flatten ++ last.header.val ++ back = h.header.val ++ tail ∧ ms.length ≤ tail.length := by
  cases ms with
  | nil => exact ⟨last, back, rfl, Nat.zero_le _⟩
  | cons m ms =>
    refine ⟨m, m.payload ++ ((PeerMessage.parts ms).flatten ++ last.header.val ++ back), by simp [PeerMessage.parts], ?_⟩
    have header : last.header.val.length = 24 := last.header.property
    have others := parts_long ms
    simp only [List.length_cons, List.length_append, header]
    omega

/-- Whatever comes before a message with this command, `readFrom` returns the header of that message
and leaves the stream at its payload; it has answered the pings, in order, and written nothing else. -/
theorem read_from_awaits {commandName : String} {name : U8Array 12}
    (named : commandNameToBytes commandName = .ok name) {ms : List PeerMessage} {last : PeerMessage}
    (skipped : ∀ m ∈ ms, m.Skipped name) (wanted : last.command = name) {finish : Option (Nat → Bool)}
    (waiting : ∀ i < ms.length, isTerminated finish i = false) (back : List UInt8) (later : Socket)
    (written : List (List UInt8)) :
    ∃ header pongs, HeaderMessage.fromLeBytes last.header = .ok header ∧
      (ms.filter (·.name = some "ping")).mapM (fun m => framed ("pong", m.payload)) = .ok pongs ∧
      (HeaderMessage.readFrom commandName finish).run
          ⟨((PeerMessage.parts ms).flatten ++ last.header.val ++ back) :: later, written⟩ =
        (.ok header, ⟨back :: later, written ++ pongs⟩) := by
  have each : ∀ m ∈ ms.filter (·.name = some "ping"), ∃ pong, framed ("pong", m.payload) = .ok pong ∧ True := by
    intro m _
    have fits : "pong".toUTF8.toList.length ≤ 12 := by decide +kernel
    obtain ⟨header, built⟩ : ∃ header : U8Array 24, framed ("pong", m.payload) = .ok (header.val ++ m.payload) :=
      framed_shape fits
    exact ⟨_, built, trivial⟩
  obtain ⟨pongs, answers, _⟩ := Outcome.mapM_eq_ok each
  obtain ⟨headerCommandName, padded⟩ : ∃ text, fromUtf8 name.val = .ok text := by
    rw [commandNameToBytes] at named
    split_ifs at named with fits
    · rw [← Except.ok.inj named]
      exact ⟨_, from_utf8_padded commandName _⟩
    · cases named
  refine ⟨last.decoded headerCommandName, pongs, PeerMessage.from_le_bytes_decoded (by rw [wanted, padded]), answers, ?_⟩
  rw [HeaderMessage.readFrom, named, Outcome.widen_ok, Proc.run_bind_ok _ (Proc.run_lift _ _), padded,
    Proc.run_bind_ok _ (Proc.run_lift _ _)]
  obtain ⟨h, tail, split, enough⟩ := starts_with_header ms last back
  have rounds : ms.length < (tail :: later).flatten.length + 1 := by
    rw [List.flatten_cons, List.length_append]
    omega
  have waitingOn : ∀ j < ms.length, isTerminated finish (0 + j) = false := fun j inside => by
    rw [Nat.zero_add]
    exact waiting j inside
  have run := skip_messages_run padded wanted skipped rounds waitingOn answers back later written
  have header := MessageStream.read_exact_front h.header tail later written
  rw [split, Proc.run_bind_ok _ header, Proc.run_bind, Proc.run_lift] at run ⊢
  -- the header is the same in both, and then the rounds that are left
  cases decoded : HeaderMessage.fromLeBytes h.header with
  | error e => rwa [decoded] at run
  | ok header =>
    rw [decoded] at run
    exact run

end Await

/-- The verack of a handshake behind a ping and a message without a payload. The flag is set later. -/
theorem read_from_awaits_verack :
    let _ := Crates.standard
    let name : U8Array 12 := ⟨[0x76, 0x65, 0x72, 0x61, 0x63, 0x6b, 0, 0, 0, 0, 0, 0], rfl⟩
    let verack : PeerMessage := ⟨startString, name, checksumEmptyPayload, [], by decide⟩
    let other : PeerMessage :=
      ⟨startString, ⟨[0x61, 0x6c, 0x65, 0x72, 0x74, 0, 0, 0, 0, 0, 0, 0], rfl⟩, checksumEmptyPayload, [], by decide⟩
    ∃ header pongs, HeaderMessage.fromLeBytes verack.header = .ok header ∧
      ([PeerMessage.ping, other].filter (·.name = some "ping")).mapM (fun m => framed ("pong", m.payload)) = .ok pongs ∧
      (HeaderMessage.readFrom "verack" (some (2 ≤ ·))).run
          ⟨((PeerMessage.parts [PeerMessage.ping, other]).flatten ++ verack.header.val ++ [7]) :: [], []⟩ =
        (.ok header, ⟨[7] :: [], [] ++ pongs⟩) := by
  intro _ name verack other
  have pingBytes : PeerMessage.ping.command.val = "ping".toUTF8.toList ++ List.replicate 8 0 := by decide +kernel
  have otherBytes : other.command.val = "alert".toUTF8.toList ++ List.replicate 7 0 := by decide +kernel
  have pingName : fromUtf8 PeerMessage.ping.command.val = .ok ("ping" ++ String.ofList (List.replicate 8 '\x00')) := by
    rw [pingBytes, from_utf8_padded]
  have otherName : fromUtf8 other.command.val = .ok ("alert" ++ String.ofList (List.replicate 7 '\x00')) := by
    rw [otherBytes, from_utf8_padded]
  have waiting : ∀ i < [PeerMessage.ping, other].length, isTerminated (some (2 ≤ ·)) i = false :=
    fun i inside => decide_eq_false (Nat.not_le.mpr inside)
  refine read_from_awaits (by decide +kernel) (fun m member => ?_) rfl waiting [7] [] []
  rcases List.mem_pair.mp member with rfl | rfl
  · refine ⟨⟨_, pingName⟩, by decide, fun commandName legible _ => ?_⟩
    rw [PeerMessage.name, pingName]
    decide +kernel
  · refine ⟨⟨_, otherName⟩, by decide, fun commandName legible inside => ?_⟩
    obtain rfl := Except.ok.inj (otherName.symm.trans legible)
    exact absurd inside (by decide +kernel)

end BitcoinNode
