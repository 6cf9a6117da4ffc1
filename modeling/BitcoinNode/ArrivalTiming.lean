import BitcoinNode.ReceiveLoop
import Mathlib.Algebra.Order.BigOperators.Group.List

/-! When the bytes of a peer arrive does not matter as long as no header and no payload is torn by
a time-out. One that is torn loses its first bytes, and what follows is read out of step. -/
namespace BitcoinNode

/-- A complete message: a header, and as many bytes as it announces. -/
structure PeerMessage where
  startString : U8Array 4
  command : U8Array 12
  checksum : U8Array 4
  payload : List UInt8
  sized : payload.length < 2 ^ 32

namespace PeerMessage

def header (m : PeerMessage) : U8Array 24 :=
  ⟨m.startString.val ++ m.command.val ++ u32ToLeBytes (UInt32.ofNat m.payload.length) ++ m.checksum.val,
    by simp⟩

/-- Headers and payloads in the order they are sent. -/
def parts (ms : List PeerMessage) : List (List UInt8) := ms.flatMap fun m => [m.header.val, m.payload]

/-- The name by which the loop looks for a handler, if the command is text at all. -/
def name (m : PeerMessage) : Option String :=
  match fromUtf8 m.command.val with
  | .ok command => some (getHeaderCommandNameAsStr command)
  | .error _ => none

def Handled (m : PeerMessage) : Prop := ∃ name ∈ handledCommands, m.name = some name

end PeerMessage

theorem PeerMessage.from_le_bytes_header (m : PeerMessage) :
    HeaderMessage.fromLeBytes m.header = do
      let commandName ← fromUtf8 m.command.val
      return ⟨m.startString, commandName, UInt32.ofNat m.payload.length, m.checksum⟩ := by
  have cut (front word back : List UInt8) {start stop : Nat} (before : front.length = start)
      (after : start + word.length = stop) (split : m.header.val = front ++ word ++ back) :
      slice m.header.val start stop = word := by
    subst before after
    rw [split, slice_middle]
  have startString : slice m.header.val 0 4 = m.startString.val :=
    cut [] _ _ rfl (by simp) (by simp only [header, List.nil_append, List.append_assoc]; rfl)
  have command : slice m.header.val 4 16 = m.command.val :=
    cut m.startString.val _ _ (by simp) (by simp) (by simp only [header, List.append_assoc]; rfl)
  have size : slice m.header.val 16 20 = u32ToLeBytes (UInt32.ofNat m.payload.length) :=
    cut (m.startString.val ++ m.command.val) _ _ (by simp) (by simp)
      (by simp only [header, List.append_assoc]; rfl)
  have checksum : slice m.header.val 20 24 = m.checksum.val :=
    cut (m.startString.val ++ m.command.val ++ u32ToLeBytes (UInt32.ofNat m.payload.length)) _ [] (by simp)
      (by simp) (by simp [header])
  simp only [HeaderMessage.fromLeBytes, startString, command, size, checksum, u32_from_to]

open Socket

section Receive

variable (handler : List (String × List UInt8) → Outcome NodeCustomErrors Unit)

/-- What is handed over when every message arrives whole. -/
def deliver : List PeerMessage → (handed : List (String × List UInt8)) → List (String × List UInt8)
  | [], handed => handed
  | m :: ms, handed =>
    match m.name with
    | none => handed
    | some name =>
      if name ∈ handledCommands then
        match handler (handed ++ [(name, m.payload)]) with
        | .ok () => deliver ms (handed ++ [(name, m.payload)])
        | .error _ => handed ++ [(name, m.payload)]
      else deliver ms handed

def received (fuel : Nat) (node : Socket) (handed : List (String × List UInt8)) :
    List (String × List UInt8) :=
  ((Connection.receive handler fuel).run ⟨node, handed⟩).2.handed

theorem read_header_ok {node node' : Socket} {bytes : U8Array 24}
    (read : (readExact 24).run node = (.ok bytes, node')) :
    readHeader.run node =
      (Outcome.mapErr .UnmarshallingError (HeaderMessage.fromLeBytes bytes), node') := by
  rw [readHeader, Proc.run_bind_ok _ (Proc.run_attempt_ok read)]
  rfl

theorem received_timeout {fuel : Nat} {node node' : Socket} (handed : List (String × List UInt8))
    (read : (readExact 24).run node = (.error (.err .WouldBlock), node')) :
    received handler (fuel + 1) node handed = received handler fuel node' handed := by
  have header : (Connection.read readHeader).run ⟨node, handed⟩ =
      (.error (.err (.OtherError IoError.WouldBlock.fmt)), ⟨node', handed⟩) := by
    rw [Connection.read, Proc.run_zoom, readHeader, Proc.run_bind_ok _ (Proc.run_attempt_err read)]
    rfl
  rw [received, Connection.receive, Proc.run_bind_ok _ (Proc.run_attempt_err header)]
  rfl

theorem received_closed {fuel : Nat} {node node' : Socket} (handed : List (String × List UInt8))
    (read : (readExact 24).run node = (.error (.err .UnexpectedEof), node')) :
    received handler (fuel + 1) node handed = handed := by
  have header : (Connection.read readHeader).run ⟨node, handed⟩ =
      (.error (.err (.ReadNodeError IoError.UnexpectedEof.fmt)), ⟨node', handed⟩) := by
    rw [Connection.read, Proc.run_zoom, readHeader, Proc.run_bind_ok _ (Proc.run_attempt_err read)]
    rfl
  rw [received, Connection.receive, Proc.run_bind_ok _ (Proc.run_attempt_err header)]
  rfl

theorem received_not_text {fuel : Nat} {node node' : Socket} {bytes : U8Array 24} {text : String}
    (handed : List (String × List UInt8)) (read : (readExact 24).run node = (.ok bytes, node'))
    (failed : HeaderMessage.fromLeBytes bytes = .error (.err text)) :
    received handler (fuel + 1) node handed = handed := by
  have header : (Connection.read readHeader).run ⟨node, handed⟩ =
      (.error (.err (.UnmarshallingError text)), ⟨node', handed⟩) := by
    rw [Connection.read, Proc.run_zoom, read_header_ok read, failed]
    rfl
  rw [received, Connection.receive, Proc.run_bind_ok _ (Proc.run_attempt_err header)]
  rfl

theorem received_payload_error {fuel : Nat} {node node' node'' : Socket} {bytes : U8Array 24}
    {header : HeaderMessage} {e : Failure NodeCustomErrors} (handed : List (String × List UInt8))
    (read : (readExact 24).run node = (.ok bytes, node'))
    (decoded : HeaderMessage.fromLeBytes bytes = .ok header)
    (failed : (readPayload header.payloadSize.toNat).run node' = (.error e, node'')) :
    received handler (fuel + 1) node handed = handed := by
  have header' : (Connection.read readHeader).run ⟨node, handed⟩ = (.ok header, ⟨node', handed⟩) := by
    rw [Connection.read, Proc.run_zoom, read_header_ok read, decoded]
    rfl
  have payload' : (Connection.read (readPayload header.payloadSize.toNat)).run ⟨node', handed⟩ =
      (.error e, ⟨node'', handed⟩) := by
    rw [Connection.read, Proc.run_zoom, failed]
  rw [received, Connection.receive, Proc.run_bind_ok _ (Proc.run_attempt_ok header')]
  simp only [Proc.run_bind_error _ payload']

theorem received_message {fuel : Nat} {node node' node'' : Socket} {bytes : U8Array 24}
    {header : HeaderMessage} {payload : List UInt8} (handed : List (String × List UInt8))
    (read : (readExact 24).run node = (.ok bytes, node'))
    (decoded : HeaderMessage.fromLeBytes bytes = .ok header)
    (found : (readPayload header.payloadSize.toNat).run node' = (.ok payload, node'')) :
    received handler (fuel + 1) node handed =
      let name := getHeaderCommandNameAsStr header.commandName
      if name ∈ handledCommands then
        match handler (handed ++ [(name, payload)]) with
        | .ok () => received handler fuel node'' (handed ++ [(name, payload)])
        | .error _ => handed ++ [(name, payload)]
      else received handler fuel node'' handed := by
  have header' : (Connection.read readHeader).run ⟨node, handed⟩ = (.ok header, ⟨node', handed⟩) := by
    rw [Connection.read, Proc.run_zoom, read_header_ok read, decoded]
    rfl
  have payload' : (Connection.read (readPayload header.payloadSize.toNat)).run ⟨node', handed⟩ =
      (.ok payload, ⟨node'', handed⟩) := by
    rw [Connection.read, Proc.run_zoom, found]
  rw [received, Connection.receive, Proc.run_bind_ok _ (Proc.run_attempt_ok header')]
  simp only [Proc.run_bind_ok _ payload']
  by_cases known : getHeaderCommandNameAsStr header.commandName ∈ handledCommands
  · rw [if_pos known, if_pos known, Proc.run_bind_ok _ (Proc.run_modify _ _),
      Proc.run_bind_ok _ (Proc.run_get _), Proc.run_bind, Proc.run_lift]
    simp only [Connection.hand]
    cases handler _ <;> rfl
  · rw [if_neg known, if_neg known]
    rfl

theorem read_payload_from_eq {size : Nat} {node node' : Socket} {bytes : U8Array size}
    (read : (readExact size).run node = (.ok bytes, node')) :
    (readPayload size).run node = (.ok bytes.val, node') := by
  cases node <;> simp [readPayload, readPayloadFrom, read]

theorem read_payload_timeout {size : Nat} {piece : List UInt8} {later node' : Socket}
    (read : (readExact size).run (piece :: later) = (.error (.err .WouldBlock), node')) :
    (readPayload size).run (piece :: later) = (readPayload size).run node' := by
  obtain ⟨rfl, _⟩ := read_exact_error read
  simp [readPayload, readPayloadFrom, read]

theorem read_payload_aligned {node : Socket} {payload : List UInt8} {parts : List (List UInt8)}
    (aligned : Aligned node (payload :: parts)) :
    ∃ node', (readPayload payload.length).run node = (.ok payload, node') ∧ Aligned node' parts ∧
      node'.length ≤ node.length := by
  by_cases empty : payload = []
  · subst empty
    refine ⟨node, ?_, aligned_nil_part.mp aligned, Nat.le_refl _⟩
    cases node with
    | nil => rfl
    | cons piece later => exact read_payload_from_eq (read_exact_front ⟨[], rfl⟩ piece later)
  · induction node with
    | nil =>
      obtain ⟨same, _⟩ := aligned
      simp [empty] at same
    | cons first later ih =>
      rcases aligned.next empty with ⟨piece, later', split, aligned'⟩ | ⟨back, later', split, aligned'⟩
      · obtain ⟨rfl, rfl⟩ := List.cons.inj split
        obtain ⟨node', found, rest, fewer⟩ := ih aligned'
        have timeout := read_exact_timeout (List.length_pos_iff.mpr empty) piece later'
        exact ⟨node', (read_payload_timeout timeout).trans found, rest, Nat.le_succ_of_le fewer⟩
      · obtain ⟨rfl, rfl⟩ := List.cons.inj split
        exact ⟨back :: later, read_payload_from_eq (read_exact_front ⟨payload, rfl⟩ back later), aligned',
          Nat.le_refl _⟩

theorem from_utf8_error {bytes : List UInt8} {e : Failure String} (failed : fromUtf8 bytes = .error e) :
    ∃ text, e = .err text := by
  rw [fromUtf8] at failed
  split at failed
  · cases failed
  · exact ⟨_, (Except.error.inj failed).symm⟩

theorem PeerMessage.parts_cons (m : PeerMessage) (ms : List PeerMessage) :
    parts (m :: ms) = m.header.val :: m.payload :: parts ms := rfl

/-- Whole messages are handed over in the order they were sent, whenever they arrive. -/
theorem received_aligned {fuel : Nat} {node : Socket} {ms : List PeerMessage}
    (handed : List (String × List UInt8)) (aligned : Aligned node (PeerMessage.parts ms))
    (enough : node.length + ms.length < fuel) :
    received handler fuel node handed = deliver handler ms handed := by
  induction fuel generalizing node ms handed with
  | zero => omega
  | succ fuel ih =>
    cases ms with
    | nil =>
      match node, aligned with
      | [], _ => exact received_closed handler handed (read_exact_nil (by decide))
      | [piece], ⟨empty, _⟩ =>
        obtain rfl : piece = [] := by simpa [PeerMessage.parts] using empty
        exact received_closed handler handed (read_exact_short [] (by decide))
      | first :: piece :: later, aligned =>
        obtain rfl : first = [] := by
          have empty := aligned.1
          simp [PeerMessage.parts] at empty
          exact empty.1
        rw [received_timeout handler handed (read_exact_timeout (by decide) piece later)]
        apply ih handed (aligned_nil_piece.mp aligned)
        simp only [List.length_cons] at enough ⊢
        omega
    | cons m ms =>
      rw [PeerMessage.parts_cons] at aligned
      have nonempty : m.header.val ≠ [] := by
        intro empty
        have length := m.header.length_val
        simp [empty] at length
      rcases aligned.next nonempty with ⟨piece, later, rfl, aligned'⟩ | ⟨back, later, rfl, aligned'⟩
      · rw [received_timeout handler handed (read_exact_timeout (by decide) piece later)]
        apply ih handed aligned'
        simp only [List.length_cons] at enough ⊢
        omega
      · have read := read_exact_front m.header back later
        have header := m.from_le_bytes_header
        rw [deliver, PeerMessage.name]
        rcases text : fromUtf8 m.command.val with e | command
        · obtain ⟨reason, rfl⟩ := from_utf8_error text
          rw [text] at header
          rw [received_not_text handler handed read header]
        · rw [text] at header
          obtain ⟨node', found, rest, fewer⟩ := read_payload_aligned aligned'
          have size : (UInt32.ofNat m.payload.length).toNat = m.payload.length :=
            UInt32.toNat_ofNat_of_lt' m.sized
          have fuelLeft : node'.length + ms.length < fuel := by
            simp only [List.length_cons] at enough fewer
            omega
          rw [received_message handler handed read header (by rw [size]; exact found)]
          simp only [ih _ rest fuelLeft]

def weight (handed : List (String × List UInt8)) : Nat := (handed.map fun message => 24 + message.2.length).sum

theorem from_le_bytes_error {bytes : U8Array 24} {e : Failure String}
    (failed : HeaderMessage.fromLeBytes bytes = .error e) : ∃ text, e = .err text := by
  rw [HeaderMessage.fromLeBytes] at failed
  rcases text : fromUtf8 (slice bytes.val 4 16) with e' | command
  · obtain ⟨reason, rfl⟩ := from_utf8_error text
    rw [text] at failed
    exact ⟨reason, (Except.error.inj failed).symm⟩
  · rw [text] at failed
    cases failed

theorem read_payload_ok {size : Nat} {node node' : Socket} {payload : List UInt8}
    (read : (readPayload size).run node = (.ok payload, node')) :
    payload.length + node'.flatten.length ≤ node.flatten.length ∧ node'.length ≤ node.length ∧
      (payload.length + node'.flatten.length = node.flatten.length →
        node.flatten = payload ++ node'.flatten ∧
          ∀ parts, Aligned node' parts → Aligned node (payload :: parts)) := by
  have atOnce {node : Socket} {bytes : U8Array size} (read : (readExact size).run node = (.ok bytes, node')) :
      bytes.val.length + node'.flatten.length ≤ node.flatten.length ∧ node'.length ≤ node.length ∧
        (bytes.val.length + node'.flatten.length = node.flatten.length →
          node.flatten = bytes.val ++ node'.flatten ∧
            ∀ parts, Aligned node' parts → Aligned node (bytes.val :: parts)) := by
    have flatten := read_exact_flatten read
    refine ⟨?_, read_exact_length read, fun _ => ⟨flatten, fun parts => read_exact_aligned read⟩⟩
    rw [flatten, List.length_append]
  induction node with
  | nil =>
    rcases first : (readExact size).run [] with ⟨e | bytes, rest⟩
    · simp [readPayload, readPayloadFrom, first, Outcome.fail] at read
    · cases (read_payload_from_eq first).symm.trans read
      exact atOnce first
  | cons piece later ih =>
    rcases first : (readExact size).run (piece :: later) with ⟨e | bytes, rest⟩
    · obtain ⟨rfl, rfl | ⟨rfl, _⟩⟩ := read_exact_error first
      · simp [readPayload, readPayloadFrom, first, Outcome.fail] at read
      · rw [read_payload_timeout first] at read
        obtain ⟨bound, fewer, lossless⟩ := ih read
        rw [List.flatten_cons, List.length_append]
        refine ⟨Nat.le_add_left_of_le bound, Nat.le_succ_of_le fewer, fun total => ?_⟩
        obtain rfl : piece = [] := List.eq_nil_of_length_eq_zero (by omega)
        obtain ⟨flatten, aligned⟩ := lossless (by simpa using total)
        exact ⟨flatten, fun parts rest => aligned_nil_piece.mpr (aligned parts rest)⟩
    · cases (read_payload_from_eq first).symm.trans read
      exact atOnce first

theorem received_round (node : Socket) (handed : List (String × List UInt8)) :
    (∀ fuel, received handler (fuel + 1) node handed = handed) ∨
    (node ≠ [] ∧ ∀ fuel, received handler (fuel + 1) node handed = received handler fuel node.tail handed) ∨
    ∃ name payload node', 24 + payload.length + node'.flatten.length ≤ node.flatten.length ∧
      node'.length ≤ node.length ∧ ∀ fuel, received handler (fuel + 1) node handed =
        if name ∈ handledCommands then
          match handler (handed ++ [(name, payload)]) with
          | .ok () => received handler fuel node' (handed ++ [(name, payload)])
          | .error _ => handed ++ [(name, payload)]
        else received handler fuel node' handed := by
  rcases read : (readExact 24).run node with ⟨e | bytes, node'⟩
  · obtain ⟨rfl, closed | ⟨timeout, nonempty⟩⟩ := read_exact_error read
    · rw [closed] at read
      exact .inl fun _ => received_closed handler handed read
    · rw [timeout] at read
      exact .inr (.inl ⟨nonempty, fun _ => received_timeout handler handed read⟩)
  rcases decoded : HeaderMessage.fromLeBytes bytes with e | header
  · obtain ⟨text, rfl⟩ := from_le_bytes_error decoded
    exact .inl fun _ => received_not_text handler handed read decoded
  rcases found : (readPayload header.payloadSize.toNat).run node' with ⟨e | payload, node''⟩
  · exact .inl fun _ => received_payload_error handler handed read decoded found
  · have headerBytes := congrArg List.length (read_exact_flatten read)
    rw [List.length_append, bytes.length_val] at headerBytes
    obtain ⟨payloadBytes, fewer, _⟩ := read_payload_ok found
    exact .inr (.inr ⟨getHeaderCommandNameAsStr header.commandName, payload, node'', by omega,
      fewer.trans (read_exact_length read), fun _ => received_message handler handed read decoded found⟩)

theorem received_weight (fuel : Nat) (node : Socket) (handed : List (String × List UInt8)) :
    ∃ more, received handler fuel node handed = handed ++ more ∧ weight more ≤ node.flatten.length := by
  induction fuel generalizing node handed with
  | zero => exact ⟨[], by simp [received, Connection.receive], Nat.zero_le _⟩
  | succ fuel ih =>
    rcases received_round handler node handed with
      stopped | ⟨_, timeout⟩ | ⟨name, payload, node', taken, _, message⟩
    · exact ⟨[], by simp [stopped], Nat.zero_le _⟩
    · obtain ⟨more, same, bound⟩ := ih node.tail handed
      refine ⟨more, (timeout fuel).trans same, bound.trans ?_⟩
      cases node <;> simp
    · rw [message]
      split_ifs
      · split
        · obtain ⟨more, same, bound⟩ := ih node' (handed ++ [(name, payload)])
          refine ⟨(name, payload) :: more, by simp [same], ?_⟩
          show 24 + payload.length + weight more ≤ node.flatten.length
          omega
        · refine ⟨[(name, payload)], rfl, ?_⟩
          show 24 + payload.length + 0 ≤ node.flatten.length
          omega
      · obtain ⟨more, same, bound⟩ := ih node' handed
        exact ⟨more, same, by omega⟩

theorem received_fuel {fuel : Nat} (fuel' : Nat) (node : Socket) (handed : List (String × List UInt8))
    (enough : node.flatten.length + node.length < fuel) (enough' : node.flatten.length + node.length < fuel') :
    received handler fuel node handed = received handler fuel' node handed := by
  induction fuel generalizing node handed fuel' with
  | zero => omega
  | succ fuel ih =>
    obtain ⟨fuel', rfl⟩ := Nat.exists_eq_add_one_of_ne_zero (Nat.ne_of_gt (Nat.zero_lt_of_lt enough'))
    rcases received_round handler node handed with
      stopped | ⟨nonempty, timeout⟩ | ⟨name, payload, node', taken, fewer, message⟩
    · rw [stopped, stopped]
    · obtain ⟨piece, later, rfl⟩ := List.exists_cons_of_ne_nil nonempty
      rw [timeout, timeout]
      simp only [List.flatten_cons, List.length_append, List.length_cons] at enough enough'
      exact ih fuel' _ handed (by rw [List.tail_cons]; omega) (by rw [List.tail_cons]; omega)
    · rw [message, message]
      simp only [ih fuel' node' _ (by omega) (by omega)]

def PeerMessage.handedOver (m : PeerMessage) : String × List UInt8 := (m.name.getD "", m.payload)

theorem deliver_handled {ms : List PeerMessage} (handled : ∀ m ∈ ms, m.Handled)
    (handed : List (String × List UInt8)) :
    deliver (fun _ => .ok ()) ms handed = handed ++ ms.map PeerMessage.handedOver := by
  induction ms generalizing handed with
  | nil => simp [deliver]
  | cons m ms ih =>
    obtain ⟨⟨name, known, nameEq⟩, others⟩ := List.forall_mem_cons.mp handled
    have this : m.handedOver = (name, m.payload) := by simp [PeerMessage.handedOver, nameEq]
    rw [deliver, nameEq]
    simp only [if_pos known]
    rw [ih others, List.map_cons, this, List.append_assoc, List.singleton_append]

theorem weight_handed_over (ms : List PeerMessage) :
    weight (ms.map PeerMessage.handedOver) = (PeerMessage.parts ms).flatten.length := by
  induction ms with
  | nil => rfl
  | cons m ms ih =>
    have first : weight ((m :: ms).map PeerMessage.handedOver) =
        24 + m.payload.length + weight (ms.map PeerMessage.handedOver) := rfl
    rw [first, ih, PeerMessage.parts_cons, List.flatten_cons, List.flatten_cons, List.length_append,
      List.length_append, m.header.length_val]
    omega

theorem aligned_of_received {fuel : Nat} {node : Socket} {ms : List PeerMessage}
    (handled : ∀ m ∈ ms, m.Handled) {handed : List (String × List UInt8)}
    (sent : node.flatten = (PeerMessage.parts ms).flatten)
    (all : received (fun _ => .ok ()) fuel node handed = handed ++ ms.map PeerMessage.handedOver) :
    Aligned node (PeerMessage.parts ms) := by
  induction fuel generalizing node ms handed with
  | zero =>
    obtain rfl : ms = [] := by simpa [received, Connection.receive] using all
    exact aligned_nil sent
  | succ fuel ih =>
    cases ms with
    | nil => exact aligned_nil sent
    | cons m ms =>
      obtain ⟨⟨name, known, nameEq⟩, others⟩ := List.forall_mem_cons.mp handled
      have more : handed ≠ handed ++ (m :: ms).map PeerMessage.handedOver := by simp
      rcases read : (readExact 24).run node with ⟨e | bytes, node'⟩
      · obtain ⟨rfl, closed | ⟨timeout, nonempty⟩⟩ := read_exact_error read
        · rw [closed] at read
          exact absurd ((received_closed _ handed read).symm.trans all) more
        · rw [timeout] at read
          rw [received_timeout _ handed read] at all
          obtain ⟨piece, later, rfl⟩ := List.exists_cons_of_ne_nil nonempty
          rw [List.tail_cons] at all
          obtain ⟨_, same, bound⟩ := received_weight (fun _ => .ok ()) fuel later handed
          rw [all] at same
          rw [← List.append_cancel_left same, weight_handed_over, ← sent, List.flatten_cons,
            List.length_append] at bound
          obtain rfl : piece = [] := List.eq_nil_of_length_eq_zero (by omega)
          exact aligned_nil_piece.mpr (ih handled sent all)
      have front := (read_exact_flatten read).symm.trans sent
      rw [PeerMessage.parts_cons, List.flatten_cons] at front
      obtain ⟨sameHeader, sent'⟩ := List.append_inj front (by simp)
      obtain rfl : bytes = m.header := Subtype.ext sameHeader
      have decoded := m.from_le_bytes_header
      rcases text : fromUtf8 m.command.val with e | command
      · simp [PeerMessage.name, text] at nameEq
      rw [text] at decoded
      obtain rfl : getHeaderCommandNameAsStr command = name := by
        simpa [PeerMessage.name, text] using nameEq
      have size : (UInt32.ofNat m.payload.length).toNat = m.payload.length :=
        UInt32.toNat_ofNat_of_lt' m.sized
      rcases found : (readPayload m.payload.length).run node' with ⟨e | payload, node''⟩
      · rw [received_payload_error _ handed read decoded (by rw [size]; exact found)] at all
        exact absurd all more
      rw [received_message _ handed read decoded (by rw [size]; exact found)] at all
      simp only [if_pos known] at all
      -- What is handed over for the rest bounds what is left of the bytes, so the payload lost none.
      obtain ⟨rest, same, bound⟩ := received_weight (fun _ => .ok ()) fuel node''
        (handed ++ [(getHeaderCommandNameAsStr command, payload)])
      rw [all, List.map_cons, List.append_assoc, List.singleton_append] at same
      obtain ⟨first, rfl⟩ := List.cons.inj (List.append_cancel_left same)
      obtain ⟨_, rfl⟩ := Prod.mk.inj first
      rw [weight_handed_over] at bound
      rw [List.flatten_cons] at sent'
      obtain ⟨total, _, lossless⟩ := read_payload_ok found
      obtain ⟨flatten, aligned⟩ := lossless (by
        rw [sent', List.length_append] at total ⊢
        omega)
      have sent'' := List.append_cancel_left (flatten.symm.trans sent')
      rw [List.map_cons, first, List.append_cons handed _ (ms.map _)] at all
      exact read_exact_aligned read (aligned _ (ih others sent'' all))

end Receive

/-- Messages of which no header and no payload is torn are handed over as if everything had been
there at once, whatever the handlers answer; if each has a handler, only such messages are. -/
theorem handle_messages_from_node_arrival {ms : List PeerMessage} {node : Socket}
    (sent : node.flatten = (PeerMessage.parts ms).flatten) :
    (Aligned node (PeerMessage.parts ms) → ∀ handler,
      handleMessagesFromNode handler node = handleMessagesFromNode handler [node.flatten]) ∧
    ((∀ m ∈ ms, m.Handled) → (∀ handler,
      handleMessagesFromNode handler node = handleMessagesFromNode handler [node.flatten]) →
        Aligned node (PeerMessage.parts ms)) := by
  have count : ms.length ≤ node.flatten.length := by
    rw [sent, ← weight_handed_over, weight, List.map_map]
    have each : ∀ w ∈ ms.map ((fun message => 24 + message.2.length) ∘ PeerMessage.handedOver), 1 ≤ w := by
      intro w member
      obtain ⟨m, _, rfl⟩ := List.mem_map.mp member
      exact Nat.le_add_right_of_le (by decide)
    simpa using List.length_le_sum_of_one_le _ each
  have whole := aligned_whole (PeerMessage.parts ms)
  rw [← sent] at whole
  have length : [node.flatten].flatten.length = node.flatten.length := by simp
  have atOnce (handler) : handleMessagesFromNode handler [node.flatten] = deliver handler ms [] := by
    apply received_aligned handler [] whole
    simp only [Connection.size, length, List.length_singleton]
    omega
  constructor
  · intro aligned handler
    rw [atOnce]
    apply received_aligned handler [] aligned
    simp only [Connection.size]
    omega
  · intro handled same
    have all := (same fun _ => .ok ()).trans (atOnce _)
    rw [deliver_handled handled] at all
    exact aligned_of_received handled sent all

def PeerMessage.ping : PeerMessage where
  startString := BitcoinNode.startString
  command := ⟨[0x70, 0x69, 0x6e, 0x67, 0, 0, 0, 0, 0, 0, 0, 0], rfl⟩
  checksum := ⟨[37, 2, 250, 148], rfl⟩
  payload := [1, 2, 3, 4, 5, 6, 7, 8]
  sized := by decide

/-- A time-out after ten bytes of the header, and the ping is not answered. -/
theorem handle_messages_from_node_arrival_torn :
    let bytes := (PeerMessage.parts [.ping]).flatten
    let node := [bytes.take 10, bytes.drop 10]
    node.flatten = bytes ∧ handleMessagesFromNode (fun _ => .ok ()) node = [] ∧
      handleMessagesFromNode (fun _ => .ok ()) [node.flatten] =
        [("ping", [1, 2, 3, 4, 5, 6, 7, 8])] := by
  decide +kernel

/-- A time-out between header and payload. -/
theorem handle_messages_from_node_arrival_between :
    let node := [PeerMessage.ping.header.val, PeerMessage.ping.payload]
    ∀ handler, handleMessagesFromNode handler node = handleMessagesFromNode handler [node.flatten] := by
  intro node
  exact (@handle_messages_from_node_arrival [.ping] node rfl).1 ⟨rfl, fun i => ⟨i, rfl⟩⟩

end BitcoinNode
