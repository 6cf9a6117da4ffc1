import BitcoinNode.ChainLog

/-! Which messages a running node sends over its channels. Whatever a peer writes, the answer is no inv
message: payments are announced by the wallet alone, and only to the nodes the node itself connected to. -/
namespace BitcoinNode

def padded (commandName : String) : List UInt8 :=
  commandName.toUTF8.toList ++ List.replicate (12 - commandName.toUTF8.toList.length) 0

def isInv (message : List UInt8) : Bool := slice message 4 16 == padded "inv"

/-- It does not make an announcement of what comes after it. -/
def Silent (message : List UInt8) : Prop := ∀ rest, isInv rest = false → isInv (message ++ rest) = false

theorem Silent.nil : Silent [] := fun _ silent => silent

theorem Silent.append {message message' : List UInt8} (silent : Silent message) (silent' : Silent message') :
    Silent (message ++ message') := fun rest later => by
  rw [List.append_assoc]
  exact silent _ (silent' rest later)

theorem Silent.flatten {messages : List (List UInt8)} (silent : ∀ message ∈ messages, Silent message) :
    Silent messages.flatten := by
  induction messages with
  | nil => exact .nil
  | cons message messages ih =>
    obtain ⟨first, rest⟩ := List.forall_mem_cons.mp silent
    exact first.append (ih rest)

theorem Silent.not_inv {message : List UInt8} (silent : Silent message) : isInv message = false :=
  List.append_nil message ▸ silent [] (by decide +kernel)

theorem is_inv_header {header : HeaderMessage} {bytes : List UInt8} (written : header.toLeBytes = .ok bytes)
    (back : List UInt8) : isInv (bytes ++ back) = (padded header.commandName == padded "inv") := by
  obtain ⟨name, named, same⟩ := Outcome.bind_eq_ok.mp written
  obtain rfl := Except.ok.inj same
  have spelled : name.val = padded header.commandName := by
    rw [commandNameToBytes] at named
    split_ifs at named
    · exact congrArg Subtype.val (Except.ok.inj named).symm
    · cases named
  rw [isInv, slice, ← spelled]
  simp only [List.append_assoc]
  rw [List.drop_left' header.startString.property, List.take_left' name.property]

theorem Silent.header {header : HeaderMessage} {bytes : List UInt8} (written : header.toLeBytes = .ok bytes)
    (other : padded header.commandName ≠ padded "inv") (back : List UInt8) : Silent (bytes ++ back) := fun rest _ => by
  rw [List.append_assoc, is_inv_header written]
  exact beq_eq_false_iff_ne.mpr other

/-- What a handler sent is no announcement. -/
structure NodeSender.Answers (tx tx' : NodeSender) : Prop where
  open_ : tx'.open_ = tx.open_
  announcements : tx'.sent.filter isInv = tx.sent.filter isInv

namespace NodeSender.Answers

theorem refl (tx : NodeSender) : tx.Answers tx := ⟨rfl, rfl⟩

theorem trans {tx tx' tx'' : NodeSender} (first : tx.Answers tx') (second : tx'.Answers tx'') : tx.Answers tx'' :=
  ⟨second.open_.trans first.open_, second.announcements.trans first.announcements⟩

theorem of_eq {tx tx' : NodeSender} (same : tx' = tx) : tx.Answers tx' := same ▸ refl tx

theorem send {message : List UInt8} (silent : Silent message) :
    (NodeSender.send message).Moves NodeSender.Answers := fun tx => by
  rw [NodeSender.send, Proc.run_bind_ok _ (Proc.run_get tx)]
  split_ifs
  · refine ⟨rfl, ?_⟩
    rw [Proc.run_modify, List.filter_append, List.filter_cons_of_neg (by rw [silent.not_inv]; decide),
      List.filter_nil, List.append_nil]
  · exact refl tx

end NodeSender.Answers

section Handlers

variable [WalletCrates]

theorem Silent.framed {commandName : String} (other : padded commandName ≠ padded "inv") {payload bytes : List UInt8}
    (written : BitcoinNode.framed (commandName, payload) = .ok bytes) : Silent bytes := by
  obtain ⟨header, built, same⟩ := Outcome.bind_eq_ok.mp written
  obtain rfl := Except.ok.inj same
  exact .header built other payload

theorem Silent.block {b : Block} {bytes : List UInt8} (written : getBlockMessage b = .ok bytes) : Silent bytes :=
  .framed (by decide +kernel) written

theorem Silent.tx {tx : Transaction} {bytes : List UInt8} (written : getTxMessage tx = .ok bytes) : Silent bytes :=
  .framed (by decide +kernel) written

theorem Silent.notfound {inventories : List Inventory} {bytes : List UInt8}
    (written : getNotfoundMessage inventories = .ok bytes) : Silent bytes := by
  obtain ⟨_, _, written⟩ := Outcome.bind_eq_ok.mp written
  exact .framed (by decide +kernel) written

theorem Silent.headers {headers : List BlockHeader} {bytes : List UInt8}
    (written : HeadersMessage.marshalling headers = .ok bytes) : Silent bytes :=
  .framed (by decide +kernel) written

theorem Silent.getdata {inventories : List Inventory} {bytes : List UInt8}
    (written : (GetDataMessage.new inventories).marshalling = .ok bytes) : Silent bytes := by
  obtain ⟨header, built, same⟩ := Outcome.bind_eq_ok.mp written
  obtain rfl := Except.ok.inj same
  exact .header built (show padded "getdata" ≠ padded "inv" by decide +kernel) _

theorem is_inv_mershalling {inventories : List Inventory} {inv : List UInt8}
    (written : invMershalling inventories = .ok inv) : isInv inv = true := by
  obtain ⟨header, built, same⟩ := Outcome.bind_eq_ok.mp written
  obtain rfl := Except.ok.inj same
  rw [is_inv_header built]
  exact beq_self_eq_true _

def PeerState.Answers (s s' : PeerState) : Prop := s.tx.Answers s'.tx

omit [WalletCrates] in
theorem PeerState.Answers.refl (s : PeerState) : s.Answers s := NodeSender.Answers.refl s.tx

omit [WalletCrates] in
theorem PeerState.Answers.trans (s s' s'' : PeerState) (first : s.Answers s') (second : s'.Answers s'') : s.Answers s'' :=
  NodeSender.Answers.trans first second

omit [WalletCrates] in
theorem write_to_node_answers {message : List UInt8} (silent : Silent message) :
    (writeToNode message).Moves PeerState.Answers := fun s => NodeSender.Answers.send silent s.tx

theorem handle_header_answers (header : BlockHeader) : (handleHeader header).Moves PeerState.Answers := by
  have loads (f : Blockchain → Blockchain) :
      (Proc.modify fun s : PeerState => { s with node := s.node.onBlockchain f } :
        Proc PeerState NodeCustomErrors Unit).Moves PeerState.Answers := fun s => NodeSender.Answers.refl s.tx
  refine .bind PeerState.Answers.trans (.lift PeerState.Answers.refl _) fun s valid _ => ?_
  dsimp only
  split_ifs
  · refine Proc.Moves.bind PeerState.Answers.trans (.get PeerState.Answers.refl) (fun s' _ _ => ?_) _
    split_ifs
    · refine Proc.Moves.bind PeerState.Answers.trans (.lift PeerState.Answers.refl _) (fun s' bytes built => ?_) _
      refine Proc.Moves.bind PeerState.Answers.trans ?_ (fun _ _ _ => loads _ _) _
      exact write_to_node_answers (.getdata (Outcome.widen_eq_ok.mp built))
    · exact loads _ _
  · exact loads _ _

theorem handle_headers_message_answers (payload : List UInt8) :
    (handleHeadersMessage payload).Moves PeerState.Answers :=
  .bind PeerState.Answers.trans (.lift PeerState.Answers.refl _) fun _ _ _ =>
    Proc.Moves.each PeerState.Answers.refl PeerState.Answers.trans (fun header _ => handle_header_answers header) _

theorem handle_tx_inventory_answers (inventory : Inventory) :
    (handleTxInventory inventory).Moves PeerState.Answers := by
  refine .bind PeerState.Answers.trans (.get PeerState.Answers.refl) fun s _ _ => ?_
  split_ifs
  · exact PeerState.Answers.refl _
  · refine Proc.Moves.each PeerState.Answers.refl PeerState.Answers.trans (fun account _ => ?_) _
    refine .each PeerState.Answers.refl PeerState.Answers.trans fun tx _ => ?_
    split_ifs
    · refine .bind PeerState.Answers.trans (.lift PeerState.Answers.refl _) fun s' txMessage built => ?_
      exact write_to_node_answers (.tx (Outcome.widen_eq_ok.mp built)) _
    · exact .pure PeerState.Answers.refl ()

theorem handle_inventories_answers (inventories : List Inventory) (reply : GetdataReply) :
    (handleInventories inventories reply).Moves PeerState.Answers := by
  induction inventories generalizing reply with
  | nil => exact .pure PeerState.Answers.refl reply
  | cons inv inventories ih =>
    refine .bind PeerState.Answers.trans ?_ fun s reply _ => ih reply _
    refine .bind PeerState.Answers.trans ?_ fun s _ _ => ?_
    · split_ifs
      · exact handle_tx_inventory_answers inv
      · exact .pure PeerState.Answers.refl ()
    · refine Proc.Moves.bind PeerState.Answers.trans (.get PeerState.Answers.refl) (fun s _ _ => ?_) _
      split_ifs <;> exact PeerState.Answers.refl _

theorem handle_getdata_message_answers (payload : List UInt8) :
    (handleGetdataMessage payload).Moves PeerState.Answers := by
  refine .bind PeerState.Answers.trans (.lift PeerState.Answers.refl _) fun s decoded _ => ?_
  obtain ⟨inventories, _⟩ := decoded
  refine Proc.Moves.bind PeerState.Answers.trans (handle_inventories_answers inventories _) (fun s reply collected => ?_) _
  obtain ⟨_, frames, written, rfl⟩ := handle_inventories_ok (Proc.run_eq_of_returns collected)
  have blocks : Silent ([] ++ frames.flatten) := by
    refine Silent.nil.append (.flatten fun frame member => ?_)
    obtain ⟨i, inside, rfl⟩ := List.getElem_of_mem member
    have bound : i < (present s.node.blockchain.blocks inventories).length := Outcome.mapM_length written ▸ inside
    obtain ⟨frame, same, built⟩ := Outcome.mapM_getElem written (List.getElem?_eq_getElem bound)
    obtain rfl := Option.some.inj ((List.getElem?_eq_getElem inside).symm.trans same)
    exact .block built
  split_ifs
  · exact write_to_node_answers blocks _
  · refine Proc.Moves.bind PeerState.Answers.trans (.lift PeerState.Answers.refl _) (fun s message built => ?_) _
    exact write_to_node_answers (blocks.append (.notfound (Outcome.widen_eq_ok.mp built))) _

theorem handle_getheaders_message_answers (payload : List UInt8) :
    (handleGetheadersMessage payload).Moves PeerState.Answers := by
  refine .bind PeerState.Answers.trans (.lift PeerState.Answers.refl _) fun s decoded _ => ?_
  refine Proc.Moves.bind PeerState.Answers.trans (.lift PeerState.Answers.refl _) (fun s _ _ => ?_) _
  refine Proc.Moves.bind PeerState.Answers.trans (.get PeerState.Answers.refl) (fun s _ _ => ?_) _
  refine Proc.Moves.bind PeerState.Answers.trans (.lift PeerState.Answers.refl _) (fun s headers _ => ?_) _
  refine Proc.Moves.bind PeerState.Answers.trans (.lift PeerState.Answers.refl _) (fun s message built => ?_) _
  exact write_to_node_answers (.headers (Outcome.widen_eq_ok.mp built)) _

def InvState.Answers (s s' : InvState) : Prop := s.tx.Answers s'.tx

omit [WalletCrates] in
theorem InvState.Answers.refl (s : InvState) : s.Answers s := NodeSender.Answers.refl s.tx

omit [WalletCrates] in
theorem InvState.Answers.trans (s s' s'' : InvState) (first : s.Answers s') (second : s'.Answers s'') : s.Answers s'' :=
  NodeSender.Answers.trans first second

omit [WalletCrates] in
theorem receive_inventories_answers (payload : List UInt8) (count offset : Nat) (inventories : List Inventory) :
    (receiveInventories payload count offset inventories).Moves InvState.Answers := by
  have keeps : (receiveInventories payload count offset inventories).Keeps InvState.tx := by
    induction count generalizing offset inventories with
    | zero => exact .pure inventories
    | succ count ih =>
      refine .bind (.lift _) fun read => .bind .get fun s => ?_
      split_ifs
      · exact .bind (.modify fun _ => rfl) fun _ => ih _ _
      · exact ih _ _
  exact fun s => .of_eq (keeps s)

theorem handle_inv_message_answers (payload : List UInt8) :
    (handleInvMessage payload).Moves InvState.Answers := by
  refine .bind InvState.Answers.trans (.lift InvState.Answers.refl _) fun s decoded _ => ?_
  refine Proc.Moves.bind InvState.Answers.trans (.lift InvState.Answers.refl _) (fun s _ _ => ?_) _
  have read := receive_inventories_answers payload
  refine Proc.Moves.bind InvState.Answers.trans (read _ _ _) (fun s inventories _ => ?_) _
  split_ifs
  · exact InvState.Answers.refl _
  · refine Proc.Moves.bind InvState.Answers.trans (.lift InvState.Answers.refl _) (fun s message built => ?_) _
    exact NodeSender.Answers.send (.getdata (Outcome.widen_eq_ok.mp built)) s.tx

theorem handle_message_answers (order : UtxoSet → List (Hash × UtxoTuple)) (commandName : String)
    (payload : List UInt8) (r : Reach) :
    r.tx.Answers ((handleMessage order commandName payload).run r).2.tx := by
  unfold handleMessage
  split
  · exact handle_headers_message_answers payload ⟨r.node, r.tx⟩
  · exact handle_getdata_message_answers payload ⟨r.node, r.tx⟩
  · exact .refl r.tx
  · exact handle_inv_message_answers payload ⟨r.transactionsReceived, r.tx⟩
  · have trans (tx tx' tx'' : NodeSender) (first : tx.Answers tx') : tx'.Answers tx'' → tx.Answers tx'' := first.trans
    refine Proc.Moves.bind trans (.lift NodeSender.Answers.refl _) (fun tx header built => ?_) r.tx
    have other : padded "pong" ≠ padded "inv" := by decide +kernel
    exact NodeSender.Answers.send (.header (Outcome.widen_eq_ok.mp built) other _) tx
  · exact .refl r.tx
  · exact handle_getheaders_message_answers payload ⟨r.node, r.tx⟩
  · exact .refl r.tx

namespace RunningNode

def paymentOf (s : RunningNode) (turn : NodeTurn) : Option Transaction :=
  match turn.event with
  | .request event => if s.requests ∧ s.aborted = false then s.payment event else none
  | _ => none

def payments (s : RunningNode) : List NodeTurn → List Transaction
  | [] => []
  | turn :: turns => (s.paymentOf turn).toList ++ (s.step turn).payments turns

/-- What a turn may add to a channel, if the channel is open, and whether it stays open. -/
structure Hears (invs : List (List UInt8)) (tx tx' : NodeSender) : Prop where
  stays : tx'.open_ = true → tx.open_ = true
  alive : tx.open_ = true → tx'.sent.filter isInv = tx.sent.filter isInv ++ invs
  closed : tx.open_ = false → tx'.sent.filter isInv = tx.sent.filter isInv

omit [WalletCrates] in
theorem Hears.nothing {tx tx' : NodeSender} (same : tx'.sent.filter isInv = tx.sent.filter isInv)
    (stays : tx'.open_ = true → tx.open_ = true) : Hears [] tx tx' :=
  ⟨stays, fun _ => same.trans (List.append_nil _).symm, fun _ => same⟩

omit [WalletCrates] in
theorem Hears.refl (tx : NodeSender) : Hears [] tx tx := .nothing rfl id

theorem Hears.send {inventories : List Inventory} {inv : List UInt8} (built : invMershalling inventories = .ok inv)
    (tx : NodeSender) : Hears [inv] tx ((NodeSender.send inv).run tx).2 := by
  rw [NodeSender.send, Proc.run_bind_ok _ (Proc.run_get tx)]
  split_ifs with alive
  · refine ⟨fun _ => alive, fun _ => ?_, fun closed => Bool.noConfusion (alive.symm.trans closed)⟩
    rw [Proc.run_modify, List.filter_append, List.filter_cons_of_pos (is_inv_mershalling built), List.filter_nil]
  · exact ⟨fun open_ => open_, fun open_ => absurd open_ alive, fun _ => rfl⟩

variable {s s' : RunningNode} {R : NodeSender → NodeSender → Prop}

omit [WalletCrates] in
theorem with_peers_related {peers : List NodeSender} (related : List.Forall₂ R s.peers peers) :
    List.Forall₂ R s.wallet.nodesSender (s.withPeers peers).wallet.nodesSender ∧
      List.Forall₂ R s.incoming (s.withPeers peers).incoming := by
  constructor
  · have front := List.forall₂_take s.wallet.nodesSender.length related
    rwa [RunningNode.peers, List.take_left] at front
  · have back := List.forall₂_drop s.wallet.nodesSender.length related
    rwa [RunningNode.peers, List.drop_left] at back

/-- What a turn adds to the channels: the inv message of a payment to those of the nodes that were there at
the start, and no other inv message. -/
theorem step_hears (s : RunningNode) (turn : NodeTurn) :
    ∃ invs, ((s.paymentOf turn).toList.mapM fun tx => invMershalling [.newTx tx.hash]) = .ok invs ∧
      List.Forall₂ (Hears invs) s.wallet.nodesSender (s.step turn).wallet.nodesSender ∧
      ∃ incoming added, List.Forall₂ (Hears []) s.incoming incoming ∧
        (s.step turn).incoming = incoming ++ added ∧ ∀ tx ∈ added, tx.sent = [] := by
  have related (txs : List NodeSender) : List.Forall₂ (Hears []) txs txs :=
    List.forall₂_same.mpr fun tx _ => .refl tx
  have silent {s' : RunningNode} (nodes : List.Forall₂ (Hears []) s.wallet.nodesSender s'.wallet.nodesSender)
      (incoming : List.Forall₂ (Hears []) s.incoming s'.incoming) (unpaid : s.paymentOf turn = none) :
      ∃ invs, ((s.paymentOf turn).toList.mapM fun tx => invMershalling [.newTx tx.hash]) = .ok invs ∧
        List.Forall₂ (Hears invs) s.wallet.nodesSender s'.wallet.nodesSender ∧
        ∃ incoming added, List.Forall₂ (Hears []) s.incoming incoming ∧
          s'.incoming = incoming ++ added ∧ ∀ tx ∈ added, tx.sent = [] := by
    rw [unpaid]
    exact ⟨[], rfl, nodes, _, [], incoming, (List.append_nil _).symm, fun _ member => absurd member List.not_mem_nil⟩
  have changes {peers : List NodeSender} (changed : List.Forall₂ (Hears []) s.peers peers) :=
    with_peers_related changed
  rw [step]
  by_cases aborted : s.aborted = true
  · rw [if_pos aborted]
    refine silent (related _) (related _) ?_
    rw [paymentOf]
    cases turn.event <;> simp [aborted]
  rw [if_neg aborted]
  rcases happens : turn.event with ⟨peer, commandName, payload⟩ | peer | _ | event
  · have unpaid : s.paymentOf turn = none := by rw [paymentOf, happens]
    dsimp only
    rcases message_cases turn.order s peer commandName payload with same | ⟨tx, found, _, tx', aborted, handled, left⟩
    · rw [same]
      exact silent (related _) (related _) unpaid
    rw [handled]
    have answers := handle_message_answers turn.order commandName payload ⟨s.node, tx, s.transactionsReceived⟩
    have hears : Hears [] tx tx' := by
      rcases left with ⟨_, rfl, _⟩ | ⟨_, rfl | ⟨rfl, _⟩⟩
      · exact .nothing answers.announcements fun alive => answers.open_.symm.trans alive
      · exact .nothing answers.announcements fun alive => Bool.noConfusion alive
      · exact .nothing answers.announcements fun alive => answers.open_.symm.trans alive
    obtain ⟨nodes, incoming⟩ := changes (forall₂_set Hears.refl found hears)
    exact silent nodes incoming unpaid
  · have closed (tx : NodeSender) : Hears [] tx { tx with open_ := false } :=
      .nothing rfl fun alive => Bool.noConfusion alive
    obtain ⟨nodes, incoming⟩ := changes (forall₂_modify Hears.refl closed peer s.peers)
    exact silent nodes incoming (by rw [paymentOf, happens])
  · refine ⟨[], by rw [paymentOf, happens]; rfl, related _, s.incoming, [⟨true, []⟩], related _, rfl, fun tx member => ?_⟩
    obtain rfl := List.mem_singleton.mp member
    rfl
  · have paid : s.paymentOf turn = if s.requests then s.payment event else none := by
      simp [paymentOf, happens, aborted]
    have requested := handle_ui_request_requested turn.visits event s
    dsimp only
    rw [request]
    split_ifs with requests
    · rw [if_pos requests] at paid
      have hears (s' : RunningNode) (wallet : s'.wallet = ((handleUiRequest turn.order event).run s).2.wallet)
          (incoming : s'.incoming = s.incoming) :
          ∃ invs, ((s.paymentOf turn).toList.mapM fun tx => invMershalling [.newTx tx.hash]) = .ok invs ∧
            List.Forall₂ (Hears invs) s.wallet.nodesSender s'.wallet.nodesSender ∧
            ∃ incoming added, List.Forall₂ (Hears []) s.incoming incoming ∧
              s'.incoming = incoming ++ added ∧ ∀ tx ∈ added, tx.sent = [] := by
        rcases pays : s.payment event with _ | tx
        · refine silent ?_ (incoming ▸ related _) (paid.trans pays)
          rw [wallet, (requested.unpaid pays).1]
          exact related _
        · obtain ⟨_, _, inv, _, _, built, _, sent⟩ := requested.paid tx pays
          refine ⟨[inv], ?_, ?_, s.incoming, [], related _, incoming.trans (List.append_nil _).symm,
            fun _ member => absurd member List.not_mem_nil⟩
          · rw [paid, pays, Option.toList_some, List.mapM_cons, built]
            rfl
          · rw [wallet, sent, List.forall₂_map_right_iff, List.forall₂_same]
            exact fun tx _ => .send built tx
      rcases ran : (handleUiRequest turn.order event).run s with ⟨(e | _ | _) | _, s'⟩ <;>
        rw [ran] at requested hears
      · cases e
      · exact hears _ rfl requested.incoming
      · exact hears _ rfl requested.incoming
      · exact hears _ rfl requested.incoming
    · exact silent (related _) (related _) (paid.trans (if_neg requests))

/-- The announcements so far. -/
structure Announced (invs : List (List UInt8)) (s : RunningNode) : Prop where
  nodes : ∀ tx ∈ s.wallet.nodesSender,
    tx.sent.filter isInv <+: invs ∧ (tx.open_ = true → tx.sent.filter isInv = invs)
  incoming : ∀ tx ∈ s.incoming, tx.sent.filter isInv = []

theorem Announced.step {before : List (List UInt8)} (announced : Announced before s) (turn : NodeTurn) :
    ∃ invs, ((s.paymentOf turn).toList.mapM fun tx => invMershalling [.newTx tx.hash]) = .ok invs ∧
      Announced (before ++ invs) (s.step turn) := by
  obtain ⟨invs, built, nodes, incoming, added, kept, all, fresh⟩ := s.step_hears turn
  refine ⟨invs, built, fun tx' member => ?_, fun tx' member => ?_⟩
  · obtain ⟨tx, listed, hears⟩ := exists_related nodes member
    obtain ⟨part, whole⟩ := announced.nodes tx listed
    rcases alive : tx.open_ with _ | _
    · rw [hears.closed alive]
      exact ⟨part.trans (List.prefix_append _ _), fun alive' => Bool.noConfusion (alive.symm.trans (hears.stays alive'))⟩
    · rw [hears.alive alive, whole alive]
      exact ⟨List.prefix_rfl, fun _ => rfl⟩
  · rcases List.mem_append.mp (all ▸ member) with member | member
    · obtain ⟨tx, listed, hears⟩ := exists_related kept member
      rcases alive : tx.open_ with _ | _
      · rw [hears.closed alive, announced.incoming tx listed]
      · rw [hears.alive alive, announced.incoming tx listed, List.append_nil]
    · rw [fresh tx' member, List.filter_nil]

/-- In any run, each payment is announced once to every node that the node connected to at the start, in the
order in which they are made, as long as the channel is open. No one else is sent an announcement. -/
theorem payments_announced (blockchain : Blockchain) (connectedNodes : Nat) (turns : List NodeTurn) :
    let start := new blockchain connectedNodes
    ∃ invs, ((start.payments turns).mapM fun tx => invMershalling [.newTx tx.hash]) = .ok invs ∧
      Announced invs (execute step start turns) := by
  suffices run : ∀ (s : RunningNode) (before : List (List UInt8)), Announced before s →
      ∃ invs, ((s.payments turns).mapM fun tx => invMershalling [.newTx tx.hash]) = .ok invs ∧
        Announced (before ++ invs) (execute step s turns) by
    refine run _ [] ⟨fun tx member => ?_, fun tx member => absurd member List.not_mem_nil⟩
    obtain rfl := List.eq_of_mem_replicate member
    exact ⟨List.nil_prefix, fun _ => rfl⟩
  induction turns with
  | nil => exact fun s before announced => ⟨[], rfl, (List.append_nil before).symm ▸ announced⟩
  | cons turn turns ih =>
    intro s before announced
    obtain ⟨first, built, announced⟩ := announced.step turn
    obtain ⟨rest, built', announced⟩ := ih _ _ announced
    refine ⟨first ++ rest, ?_, by rwa [← List.append_assoc]⟩
    rw [payments, List.mapM_append, built, built']
    rfl

end RunningNode

end Handlers

end BitcoinNode
