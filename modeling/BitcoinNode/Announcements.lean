import BitcoinNode.InvMessages
import BitcoinNode.Lib.Runs

/-! Announced transactions. Peers may announce one again and again, in one message or in many; it is
asked for when it is announced first, and never after that. -/
namespace BitcoinNode

open Decoder

/-- The payload starts with the count and the inventories; what comes after them is not looked at. -/
def Announces (payload : List UInt8) (inventories : List Inventory) : Prop :=
  ∃ count : CompactSizeUint, count.Counts inventories.length ∧
    count.marshalling ++ inventories.flatMap Inventory.toLeBytes <+: payload

/-- The announced transactions, in the order they are announced. -/
def announcedTransactions (inventories : List Inventory) : List Hash :=
  (inventories.filter (·.typeIdentifier = 1)).map Inventory.hash

/-- Those that nobody announced before, each once. -/
def news (transactionsReceived : List Hash) (inventories : List Inventory) : List Hash :=
  ((announcedTransactions inventories).removeAll transactionsReceived).eraseDups

theorem note_of_new {inventories : List Inventory} {inv : Inventory} {s : InvState}
    (isNew : inv.typeIdentifier = 1 ∧ inv.hash ∉ s.transactionsReceived) :
    (note inventories inv).run s = (.ok (inventories ++ [inv]),
      { s with transactionsReceived := s.transactionsReceived ++ [inv.hash] }) := by
  rw [note, Proc.run_bind_ok _ (Proc.run_get s), if_pos isNew]
  rfl

theorem note_of_known {inventories : List Inventory} {inv : Inventory} {s : InvState}
    (known : ¬(inv.typeIdentifier = 1 ∧ inv.hash ∉ s.transactionsReceived)) :
    (note inventories inv).run s = (.ok inventories, s) := by
  rw [note, Proc.run_bind_ok _ (Proc.run_get s), if_neg known]
  rfl

theorem receive_inventories_reads (read inventories : List Inventory) (front back : List UInt8) (s : InvState) :
    (receiveInventories (front ++ inventories.flatMap Inventory.toLeBytes ++ back) inventories.length
      front.length read).run s = (inventories.foldlM note read).run s := by
  induction inventories generalizing read front s with
  | nil => rfl
  | cons inv rest ih =>
    have here : (array 36 : Decoder NodeCustomErrors (U8Array 36)) (front ++ inv.toLeBytes ++
        (rest.flatMap Inventory.toLeBytes ++ back)) front.length =
          .ok (⟨inv.toLeBytes, inv.to_le_bytes_length⟩, front.length + 36) := by
      have read := Reads.array (ε := NodeCustomErrors) ⟨inv.toLeBytes, inv.to_le_bytes_length⟩ front
        (rest.flatMap Inventory.toLeBytes ++ back)
      rwa [inv.to_le_bytes_length] at read
    have later (read : List Inventory) (s : InvState) := ih read (front ++ inv.toLeBytes) s
    simp only [List.length_append, inv.to_le_bytes_length, List.append_assoc _ _ back] at later
    have split : front ++ (inv :: rest).flatMap Inventory.toLeBytes ++ back =
        front ++ inv.toLeBytes ++ (rest.flatMap Inventory.toLeBytes ++ back) := by
      simp only [List.flatMap_cons, List.append_assoc]
    rw [List.foldlM_cons, List.length_cons, split]
    by_cases isNew : inv.typeIdentifier = 1 ∧ inv.hash ∉ s.transactionsReceived
    · rw [Proc.run_bind_ok _ (note_of_new isNew), ← later]
      simp only [receiveInventories, here, Proc.run_bind, Proc.run_lift, Proc.run_get,
        Inventory.from_le_bytes_to, if_pos isNew, Proc.run_modify]
    · rw [Proc.run_bind_ok _ (note_of_known isNew), ← later]
      simp only [receiveInventories, here, Proc.run_bind, Proc.run_lift, Proc.run_get,
        Inventory.from_le_bytes_to, if_neg isNew]

theorem news_nil (transactionsReceived : List Hash) : news transactionsReceived [] = [] := rfl

theorem news_cons_of_new {transactionsReceived : List Hash} {inv : Inventory} {rest : List Inventory}
    (isNew : inv.typeIdentifier = 1 ∧ inv.hash ∉ transactionsReceived) :
    news transactionsReceived (inv :: rest) = inv.hash :: news (transactionsReceived ++ [inv.hash]) rest := by
  have first : announcedTransactions (inv :: rest) = inv.hash :: announcedTransactions rest := by
    simp [announcedTransactions, isNew.1]
  have without : ((announcedTransactions rest).removeAll transactionsReceived).filter (fun hash => !hash == inv.hash) =
      (announcedTransactions rest).removeAll (transactionsReceived ++ [inv.hash]) := by
    rw [List.removeAll, List.removeAll, List.filter_filter]
    refine List.filter_congr fun hash _ => ?_
    rw [beq_eq_decide]
    simp [Bool.and_comm]
  rw [news, first, List.cons_removeAll, if_pos (by simpa using isNew.2), List.eraseDups_cons, without, news]

theorem news_cons_of_known {transactionsReceived : List Hash} {inv : Inventory} {rest : List Inventory}
    (known : ¬(inv.typeIdentifier = 1 ∧ inv.hash ∉ transactionsReceived)) :
    news transactionsReceived (inv :: rest) = news transactionsReceived rest := by
  by_cases transaction : inv.typeIdentifier = 1
  · have before : inv.hash ∈ transactionsReceived := not_not.mp fun absent => known ⟨transaction, absent⟩
    have first : announcedTransactions (inv :: rest) = inv.hash :: announcedTransactions rest := by
      simp [announcedTransactions, transaction]
    rw [news, first, List.cons_removeAll, if_neg (by simpa using before), news]
  · have first : announcedTransactions (inv :: rest) = announcedTransactions rest := by
      simp [announcedTransactions, transaction]
    rw [news, first, news]

theorem notes_run (read inventories : List Inventory) (s : InvState) :
    (inventories.foldlM note read).run s =
      (.ok (read ++ (news s.transactionsReceived inventories).map Inventory.newTx),
        { s with transactionsReceived := s.transactionsReceived ++ news s.transactionsReceived inventories }) := by
  induction inventories generalizing read s with
  | nil => simp [news_nil]
  | cons inv rest ih =>
    rw [List.foldlM_cons]
    by_cases isNew : inv.typeIdentifier = 1 ∧ inv.hash ∉ s.transactionsReceived
    · have same : Inventory.newTx inv.hash = inv := by rw [Inventory.newTx, ← isNew.1]
      rw [Proc.run_bind_ok _ (note_of_new isNew), ih, news_cons_of_new isNew, List.map_cons, same]
      simp only [List.append_assoc, List.singleton_append]
    · rw [Proc.run_bind_ok _ (note_of_known isNew), ih, news_cons_of_known isNew]

/-- Both encoders write the same payload, and both decoders read the inventories back from it: the loop
of the inv handler goes through them one by one. -/
theorem inventory_codec [WalletCrates] {inventories : List Inventory} (fits : inventories.length < 2 ^ 64) :
    let payload := (GetDataMessage.new inventories).payload
    (∃ message, invMershalling inventories = .ok message ∧ message.drop 24 = payload) ∧
      GetDataPayload.unmarshalling payload 0 = .ok (inventories, payload.length) ∧
      ∃ count offset, CompactSizeUint.unmarshalling payload 0 = .ok (count, offset) ∧
        count.decodedValue = .ok inventories.length ∧ ∀ read s,
          (receiveInventories payload inventories.length offset read).run s = (inventories.foldlM note read).run s := by
  intro payload
  have counts := CompactSizeUint.new_counts fits
  have same : invMershalling inventories = framed ("inv", payload) := rfl
  obtain ⟨header, written⟩ : ∃ header : U8Array 24, framed ("inv", payload) = .ok (header.val ++ payload) :=
    framed_shape (show "inv".toUTF8.toList.length ≤ 12 by decide +kernel)
  have count := CompactSizeUint.unmarshalling_reads counts.1 [] (inventories.flatMap Inventory.toLeBytes)
  refine ⟨⟨_, same.trans written, ?_⟩, GetDataPayload.unmarshalling_payload fits, _, _, count, counts.2,
    fun read s => ?_⟩
  · rw [List.drop_append_of_le_length (by simp)]
    simp
  · have reads := receive_inventories_reads read inventories (CompactSizeUint.new inventories.length).marshalling [] s
    rw [List.append_nil] at reads
    rw [List.length_nil, Nat.zero_add]
    exact reads

/-- A transaction, a block and an inventory of a type that the program does not know. -/
theorem inventory_codec_three :
    let _ := OneKey.crates
    let hash := U8Array.replicate 32 7
    let inventories : List Inventory := [.newTx hash, .newBlock hash, ⟨0x40000001, hash⟩]
    let payload := (GetDataMessage.new inventories).payload
    (∃ message, invMershalling inventories = .ok message ∧ message.drop 24 = payload) ∧
      GetDataPayload.unmarshalling payload 0 = .ok (inventories, 109) ∧
      ∃ count offset, CompactSizeUint.unmarshalling payload 0 = .ok (count, offset) ∧ count.decodedValue = .ok 3 ∧
        ∀ tx, (receiveInventories payload 3 offset []).run ⟨[], tx⟩ = (.ok [.newTx hash], ⟨[hash], tx⟩) := by
  intro _ hash inventories payload
  have few : inventories.length < 2 ^ 64 := by decide
  obtain ⟨encoded, decoded, count, offset, counted, three, noted⟩ := inventory_codec few
  refine ⟨encoded, decoded, count, offset, counted, three, fun tx => ?_⟩
  have read : (receiveInventories payload 3 offset []).run ⟨[], tx⟩ = _ := (noted [] ⟨[], tx⟩).trans (notes_run ..)
  have fresh : news [] inventories = [hash] := rfl
  rw [read, fresh]
  rfl

theorem nodup_eraseDups [BEq α] [LawfulBEq α] (xs : List α) : xs.eraseDups.Nodup := by
  induction xs using List.reverseRecOn with
  | nil => exact List.nodup_nil
  | append_singleton xs x ih =>
    rw [List.eraseDups_append, List.cons_removeAll]
    by_cases before : x ∈ xs
    · simpa [before] using ih
    · have apart : ∀ y ∈ xs, y ≠ x := by
        rintro y member rfl
        exact before member
      simpa [before, List.nodup_append, ih, List.eraseDups_cons] using apart

theorem removeAll_eraseDups [BEq α] [LawfulBEq α] (xs ys : List α) : xs.removeAll ys.eraseDups = xs.removeAll ys := by
  rw [List.removeAll, List.removeAll]
  refine List.filter_congr fun x _ => ?_
  simp

theorem news_length_le (transactionsReceived : List Hash) (inventories : List Inventory) :
    (news transactionsReceived inventories).length ≤ inventories.length := by
  have inside : news transactionsReceived inventories ⊆ announcedTransactions inventories := fun hash member =>
    List.mem_of_mem_filter (List.mem_eraseDups.mp member)
  have distinct := (nodup_eraseDups _).subperm inside
  apply distinct.length_le.trans
  rw [announcedTransactions, List.length_map]
  exact List.length_filter_le _ _

section Announcements

variable [Crates]

/-- A getdata message that asks for these inventories. -/
def Requests (message : List UInt8) (inventories : List Inventory) : Prop :=
  ∃ payload, framed ("getdata", payload) = .ok message ∧
    GetDataPayload.unmarshalling payload 0 = .ok (inventories, payload.length)

/-- What the handlers of all peers did: the list that they share, the messages that they sent, in that
order, and what they returned. -/
structure Inbox where
  transactionsReceived : List Hash
  sent : List (List UInt8)
  results : List (Outcome NodeCustomErrors Unit)

/-- The handler of a peer with this channel receives a payload. -/
def Inbox.receive (s : Inbox) (call : NodeSender × List UInt8) : Inbox :=
  let r := (handleInvMessage call.2).run ⟨s.transactionsReceived, call.1⟩
  ⟨r.2.transactionsReceived, s.sent ++ r.2.tx.sent.drop call.1.sent.length, s.results ++ [r.1]⟩

theorem handle_inv_message_run {payload : List UInt8} {inventories : List Inventory}
    (announces : Announces payload inventories) {s : InvState} (alive : s.tx.open_ = true) :
    ∃ messages requests, (handleInvMessage payload).run s =
        (.ok (), ⟨s.transactionsReceived ++ news s.transactionsReceived inventories,
          { s.tx with sent := s.tx.sent ++ messages }⟩) ∧
      List.Forall₂ Requests messages requests ∧
      requests.flatten = (news s.transactionsReceived inventories).map Inventory.newTx := by
  obtain ⟨count, counts, back, rfl⟩ := announces
  have read := CompactSizeUint.unmarshalling_reads counts.1 [] (inventories.flatMap Inventory.toLeBytes ++ back)
  have noted := receive_inventories_reads [] inventories count.marshalling back s
  rw [notes_run, List.nil_append] at noted
  rw [List.nil_append, List.length_nil, Nat.zero_add, ← List.append_assoc] at read
  have decoded : count.decodedValue.widen = (.ok inventories.length : Outcome NodeCustomErrors Nat) := by
    rw [counts.2, Outcome.widen_ok]
  rw [handleInvMessage, read, Outcome.mapErr_ok, Proc.run_bind_ok _ (Proc.run_lift _ s)]
  dsimp only
  rw [decoded, Proc.run_bind_ok _ (Proc.run_lift _ s), Proc.run_bind_ok _ noted]
  by_cases none : news s.transactionsReceived inventories = []
  · refine ⟨[], [], ?_, .nil, by rw [none]; rfl⟩
    rw [none]
    simp
  · have some : (news s.transactionsReceived inventories).map Inventory.newTx ≠ [] := by simpa using none
    generalize requested : (news s.transactionsReceived inventories).map Inventory.newTx = inventories' at some
    obtain ⟨bytes, built⟩ := GetDataMessage.marshalling_new inventories'
    refine ⟨[bytes], [inventories'], ?_, .cons ⟨_, built, GetDataPayload.unmarshalling_payload ?_⟩ .nil, by simp⟩
    · rw [if_neg some, askForIncomingTx, built, Outcome.widen_ok, Proc.run_bind_ok _ (Proc.run_lift _ _),
        Proc.run_zoom, NodeSender.send, Proc.run_bind_ok _ (Proc.run_get _), if_pos alive]
      rfl
    · rw [← requested, List.length_map]
      exact Nat.lt_of_le_of_lt (news_length_le _ _) counts.lt

/-- What is noted and asked for when this was announced so far. -/
structure Inbox.Sound (inventories : List Inventory) (s : Inbox) : Prop where
  noted : s.transactionsReceived = (announcedTransactions inventories).eraseDups
  requested : ∃ requests, List.Forall₂ Requests s.sent requests ∧
    requests.flatten = s.transactionsReceived.map Inventory.newTx
  returned : ∀ result ∈ s.results, result = .ok ()

theorem Inbox.Sound.receive {earlier inventories : List Inventory} {s : Inbox} (sound : s.Sound earlier)
    {call : NodeSender × List UInt8} (alive : call.1.open_ = true) (announces : Announces call.2 inventories) :
    (s.receive call).Sound (earlier ++ inventories) := by
  obtain ⟨messages, requests, ran, asked, hashes⟩ :=
    handle_inv_message_run announces (s := ⟨s.transactionsReceived, call.1⟩) alive
  obtain ⟨before, askedBefore, hashesBefore⟩ := sound.requested
  have received : s.receive call = ⟨s.transactionsReceived ++ news s.transactionsReceived inventories,
      s.sent ++ messages, s.results ++ [.ok ()]⟩ := by
    rw [Inbox.receive, ran]
    simp
  rw [received]
  refine ⟨?_, ⟨before ++ requests, List.rel_append askedBefore asked, ?_⟩, ?_⟩
  · rw [announcedTransactions, List.filter_append, List.map_append, List.eraseDups_append]
    dsimp only
    rw [news, sound.noted, removeAll_eraseDups]
    rfl
  · rw [List.flatten_append, hashesBefore, hashes, ← List.map_append]
  · rw [List.forall_mem_append]
    exact ⟨sound.returned, by simp⟩

theorem Inbox.Sound.run {calls : List (NodeSender × List UInt8)} {messages : List (List Inventory)}
    (each : List.Forall₂ (fun call inventories => call.1.open_ = true ∧ Announces call.2 inventories) calls messages)
    {earlier : List Inventory} {s : Inbox} (sound : s.Sound earlier) :
    (execute Inbox.receive s calls).Sound (earlier ++ messages.flatten) := by
  induction each generalizing earlier s with
  | nil => simpa using sound
  | cons first _ ih =>
    rw [execute_cons, List.flatten_cons, ← List.append_assoc]
    exact ih (sound.receive first.1 first.2)

/-- Over all messages of all peers, each announced transaction is asked for once, in the order in which
they are announced first, and nothing else is asked for. -/
theorem transactions_requested_once {calls : List (NodeSender × List UInt8)} {messages : List (List Inventory)}
    (each : List.Forall₂ (fun call inventories => call.1.open_ = true ∧ Announces call.2 inventories) calls messages) :
    let s := execute Inbox.receive ⟨[], [], []⟩ calls
    let hashes := announcedTransactions messages.flatten
    (∀ result ∈ s.results, result = .ok ()) ∧
      s.transactionsReceived = hashes.eraseDups ∧ s.transactionsReceived.Nodup ∧
      (∀ hash, hash ∈ s.transactionsReceived ↔ hash ∈ hashes) ∧
      ∃ requests, List.Forall₂ Requests s.sent requests ∧
        requests.flatten = s.transactionsReceived.map Inventory.newTx := by
  intro s hashes
  have start : Inbox.Sound [] ⟨[], [], []⟩ := ⟨rfl, ⟨[], .nil, rfl⟩, by simp⟩
  have sound : s.Sound messages.flatten := start.run each
  refine ⟨sound.returned, sound.noted, ?_, fun hash => ?_, sound.requested⟩
  · rw [sound.noted]
    exact nodup_eraseDups _
  · rw [sound.noted]
    exact List.mem_eraseDups

end Announcements

theorem announces_payload {inventories : List Inventory} (fits : inventories.length < 2 ^ 64) :
    Announces (getDataPayloadBytes inventories) inventories :=
  ⟨_, CompactSizeUint.new_counts fits, List.prefix_rfl⟩

/-- Two peers announce two transactions, one of them three times. Each is asked for once. -/
theorem transactions_requested_once_repeated :
    let _ := Crates.standard
    let first := U8Array.replicate 32 1
    let second := U8Array.replicate 32 2
    let payload := getDataPayloadBytes [.newTx first, .newBlock second, .newTx first]
    let payload' := getDataPayloadBytes [.newTx second, .newTx first]
    let s := execute Inbox.receive ⟨[], [], []⟩ [(⟨true, []⟩, payload), (⟨true, []⟩, payload')]
    (∀ result ∈ s.results, result = .ok ()) ∧ s.transactionsReceived = [first, second] ∧
      (∀ hash, hash ∈ s.transactionsReceived ↔ hash = first ∨ hash = second) ∧
      ∃ requests, List.Forall₂ Requests s.sent requests ∧ requests.flatten = [.newTx first, .newTx second] := by
  intro _ first second payload payload' s
  have both : List.Forall₂ (fun call inventories => call.1.open_ = true ∧ Announces call.2 inventories)
      [((⟨true, []⟩ : NodeSender), payload), (⟨true, []⟩, payload')]
      [[.newTx first, .newBlock second, .newTx first], [.newTx second, .newTx first]] :=
    .cons ⟨rfl, announces_payload (by decide)⟩ (.cons ⟨rfl, announces_payload (by decide)⟩ .nil)
  obtain ⟨returned, noted, _, exact, requests, asked, hashes⟩ := transactions_requested_once both
  have two : s.transactionsReceived = [first, second] := noted
  refine ⟨returned, two, fun hash => ?_, requests, asked, ?_⟩
  · rw [exact hash]
    simp [announcedTransactions, Inventory.newTx, Inventory.newBlock, or_comm]
  · exact hashes.trans (congrArg (List.map Inventory.newTx) two)

end BitcoinNode
