import BitcoinNode.Lib.Relay
import BitcoinNode.PeerTurns

/-! Payments between running nodes. There is any number of them, with at most one connection from any of them to
another; wallets pay at any time, and every thread reads what its peer has written when it comes to it. -/
namespace BitcoinNode

/-- Some nodes and the connections among them. Each connection was made by its caller, for which it is one of
those at the start, and taken in by its listener. Either of them knows it by the position of a channel.
No node is connected to itself, and none has made two connections to the same listener: what comes first on
one of them is not asked for again on the other. -/
structure Wiring (ι γ : Type) where
  connected : ι → Nat
  caller : γ → ι
  callerPeer : γ → Nat
  listener : γ → ι
  listenerPeer : γ → Nat
  outgoing : ∀ c, callerPeer c < connected (caller c)
  incoming : ∀ c, connected (listener c) ≤ listenerPeer c
  apart : ∀ c, caller c ≠ listener c
  single : ∀ c c', caller c = caller c' → listener c = listener c' → c = c'
  callerOwn : ∀ c c', caller c = caller c' → callerPeer c = callerPeer c' → c = c'
  listenerOwn : ∀ c c', listener c = listener c' → listenerPeer c = listenerPeer c' → c = c'

/-- How many bytes the threads of each connection have read, and what was paid and what has arrived so far. -/
structure Network (ι γ : Type) where
  node : ι → RunningNode
  fromCaller : γ → Nat
  fromListener : γ → Nat
  made : ι → List Transaction
  heard : γ → List Transaction

inductive NetworkEvent (ι γ : Type) where
  | request (i : ι) (event : WalletEvent)
  | disconnect (i : ι) (peer : Nat)
  | listenerReads (c : γ)
  | callerReads (c : γ)

structure NetworkTurn (ι γ : Type) where
  event : NetworkEvent ι γ
  order : UtxoSet → List (Hash × UtxoTuple)
  visits : ∀ utxoSet, HashMap.Enumerates utxoSet (order utxoSet)

def NetworkTurn.of {ι γ : Type} (turn : NetworkTurn ι γ) (event : NodeEvent) : NodeTurn :=
  ⟨event, turn.order, turn.visits⟩

def NodeTurn.transaction (turn : NodeTurn) : Option Transaction :=
  match turn.event with
  | .message _ "tx" payload => (Transaction.unmarshalling payload 0).toOption.map Prod.fst
  | _ => none

/-- A whole message, if it has been written, and its size. -/
def nextMessage (unread : List UInt8) : Option ((String × List UInt8) × Nat) :=
  match readMessage.run [unread] with
  | (.ok message, rest) => some (message, unread.length - rest.flatten.length)
  | (.error _, _) => none

instance (s : RunningNode) (peer : Nat) : Decidable (s.Running peer) :=
  decidable_of_iff (s.aborted = false ∧ (s.peers[peer]?.any NodeSender.open_) = true) (by
    simp [RunningNode.Running, Option.any_eq_true])

theorem next_message_nil : nextMessage [] = none := by
  rw [nextMessage, read_message_end]
  rfl

theorem payload_one (hash : Hash) : (getDataPayloadBytes [.newTx hash]).length < 2 ^ 32 := by
  have count : (CompactSizeUint.new 1).marshalling.length = 1 := by decide +kernel
  have inventory : (Inventory.newTx hash).toLeBytes.length = 36 := Inventory.to_le_bytes_length _
  rw [getDataPayloadBytes, List.length_append, List.flatMap_singleton, List.length_singleton, count, inventory]
  decide

theorem sendable_announce (hash : Hash) : Sendable (announcePayment hash) :=
  ⟨show "inv".toUTF8.toList.length ≤ 12 by decide +kernel, show '\x00' ∉ "inv".toList by decide +kernel,
    payload_one hash⟩

theorem sendable_request (hash : Hash) : Sendable (requestPayment hash) :=
  ⟨show "getdata".toUTF8.toList.length ≤ 12 by decide +kernel, show '\x00' ∉ "getdata".toList by decide +kernel,
    payload_one hash⟩

theorem sendable_deliver {tx : Transaction} (fits : tx.marshalling.length < 2 ^ 32) :
    Sendable (deliverPayment tx) :=
  ⟨show "tx".toUTF8.toList.length ≤ 12 by decide +kernel, show '\x00' ∉ "tx".toList by decide +kernel, fits⟩

namespace Network

variable {ι γ : Type} (w : Wiring ι γ)

/-- What the caller and the listener have written on a connection. -/
def calls (n : Network ι γ) (c : γ) : List UInt8 := (n.node (w.caller c)).written (w.callerPeer c)

def replies (n : Network ι γ) (c : γ) : List UInt8 := (n.node (w.listener c)).written (w.listenerPeer c)

/-- What the listener has yet to read, and what the caller has. -/
def toListener (n : Network ι γ) (c : γ) : List UInt8 := (n.calls w c).drop (n.fromCaller c)

def toCaller (n : Network ι γ) (c : γ) : List UInt8 := (n.replies w c).drop (n.fromListener c)

/-- The connection is up: both threads run. -/
def Up (n : Network ι γ) (c : γ) : Prop :=
  (n.node (w.caller c)).Running (w.callerPeer c) ∧ (n.node (w.listener c)).Running (w.listenerPeer c)

instance (n : Network ι γ) (c : γ) : Decidable (n.Up w c) := inferInstanceAs (Decidable (_ ∧ _))

/-- Some wallets may have accounts, but nothing is pending, and nothing has been written. -/
structure Fresh (n : Network ι γ) : Prop where
  connected : ∀ i, (n.node i).wallet.nodesSender.length = w.connected i
  written : ∀ i peer, (n.node i).written peer = []
  transactionsReceived : ∀ i, (n.node i).transactionsReceived = []
  pendingTransactions : ∀ i, (n.node i).pendingTransactions = []
  real : ∀ i, ∀ account ∈ (n.node i).wallet.accounts, RealOutputs account.utxoSet
  sets : ∀ i, RealSet (n.node i).blockchain.utxoSet
  fromCaller : ∀ c, n.fromCaller c = 0
  fromListener : ∀ c, n.fromListener c = 0
  made : ∀ i, n.made i = []
  heard : ∀ c, n.heard c = []

def wireMessage : Relay.Message Hash Transaction → String × List UInt8
  | .announce hash => announcePayment hash
  | .deliver tx => deliverPayment tx

section Linked

variable [WalletCrates]

/-- No two payments have the same hash, and each fits in a message. -/
structure Orderly (made : ι → List Transaction) : Prop where
  nodup : ∀ i, ((made i).map Transaction.hash).Nodup
  own : ∀ i j, ∀ tx ∈ made i, ∀ tx' ∈ made j, tx.hash = tx'.hash → i = j
  fits : ∀ i, ∀ tx ∈ made i, tx.marshalling.length < 2 ^ 32

/-- Every relay has moved from one to the other. -/
def Reached (relay relay' : γ → Relay Hash Transaction) : Prop :=
  ∀ c, Relation.ReflTransGen (Relay.Step Transaction.hash) (relay c) (relay' c)

/-- The bytes that are under way on a connection are those of an abstract relay. -/
structure Linked (n : Network ι γ) (c : γ) (r : Relay Hash Transaction) : Prop where
  made : r.made = n.made (w.caller c)
  heard : r.heard = n.heard c
  up : r.up ↔ n.Up w c
  out : OnWire (r.out.map wireMessage) (n.toListener w c)
  back : OnWire (r.back.map requestPayment) (n.toCaller w c)
  fromCaller : n.fromCaller c ≤ (n.calls w c).length
  fromListener : n.fromListener c ≤ (n.replies w c).length

/-- Connection by connection the network is a relay, and the nodes hold what is accounted for. What has arrived
is pending in those accounts that it pays and that were there at the start. -/
structure Sound (start : ι → Nat) (n : Network ι γ) (relay : γ → Relay Hash Transaction) : Prop where
  linked : ∀ c, n.Linked w c (relay c)
  accounted : ∀ c, Relay.Accounted Transaction.hash (relay c)
  known : ∀ i, ∀ hash ∈ (n.node i).transactionsReceived, ∃ c, w.listener c = i ∧
    hash ∈ (n.made (w.caller c)).map Transaction.hash ∧ ((relay c).up → hash ∉ (relay c).announced)
  held : ∀ i, ∀ tx ∈ n.made i, (n.node i).pendingTransactions.filter (·.hash = tx.hash) = [tx]
  pending : ∀ i, ∀ tx ∈ (n.node i).pendingTransactions,
    tx ∈ n.made i ∨ ∃ c, w.listener c = i ∧ tx ∈ n.made (w.caller c)
  wellFormed : ∀ i, ∀ tx ∈ n.made i, tx.WellFormed
  real : ∀ i, ∀ account ∈ (n.node i).wallet.accounts, RealOutputs account.utxoSet
  sets : ∀ i, RealSet (n.node i).blockchain.utxoSet
  connected : ∀ i, (n.node i).wallet.nodesSender.length = w.connected i
  first : ∀ i, start i ≤ (n.node i).wallet.accounts.length
  arrived : ∀ c, n.Up w c → ∀ tx ∈ n.heard c, ∀ k < start (w.listener c), ∀ account,
    (n.node (w.listener c)).wallet.accounts[k]? = some account → involves account.address tx.txOut →
      tx ∈ account.pendingTransactions

theorem next_message_onWire {message : String × List UInt8} (sendable : Sendable message)
    {messages : List (String × List UInt8)} {bytes : List UInt8} (wire : OnWire (message :: messages) bytes) :
    ∃ size, nextMessage bytes = some (message, size) ∧ OnWire messages (bytes.drop size) ∧
      size ≤ bytes.length := by
  obtain ⟨written, built, rfl⟩ := wire
  rw [List.mapM_cons] at built
  obtain ⟨first, framed, built⟩ := Outcome.bind_eq_ok.mp built
  obtain ⟨rest, others, same⟩ := Outcome.bind_eq_ok.mp built
  obtain rfl := Except.ok.inj same
  have read := read_message_framed sendable framed rest.flatten []
  refine ⟨first.length, ?_, ⟨rest, others, ?_⟩, ?_⟩
  · rw [nextMessage, List.flatten_cons, read]
    simp
  · rw [List.flatten_cons, List.drop_left]
  · rw [List.flatten_cons, List.length_append]
    exact Nat.le_add_right _ _

variable {w} {n : Network ι γ}

theorem onWire_nil {bytes : List UInt8} (wire : OnWire [] bytes) : bytes = [] := by
  obtain ⟨_, built, rfl⟩ := wire
  obtain rfl := Except.ok.inj built
  rfl

theorem empty_of_onWire {messages : List (String × List UInt8)}
    (named : ∀ message ∈ messages, message.1.toUTF8.toList.length ≤ 12) (wire : OnWire messages []) :
    messages = [] := by
  cases messages with
  | nil => rfl
  | cons message messages =>
    obtain ⟨written, built, none⟩ := wire
    rw [List.mapM_cons] at built
    obtain ⟨first, framed, built⟩ := Outcome.bind_eq_ok.mp built
    obtain ⟨rest, _, same⟩ := Outcome.bind_eq_ok.mp built
    obtain rfl := Except.ok.inj same
    obtain ⟨header, shape⟩ := framed_shape (named message List.mem_cons_self)
    obtain rfl := Except.ok.inj (framed.symm.trans shape)
    have short := congrArg List.length (List.append_eq_nil_iff.mp (List.append_eq_nil_iff.mp none).1).1
    exact absurd (header.property.symm.trans short) (by decide)

theorem Linked.grown {c : γ} {r : Relay Hash Transaction} (linked : n.Linked w c r) {n' : Network ι γ}
    {txs : List Transaction} (made : n'.made (w.caller c) = n.made (w.caller c) ++ txs)
    (heard : n'.heard c = n.heard c) (fromCaller : n'.fromCaller c = n.fromCaller c)
    (fromListener : n'.fromListener c = n.fromListener c) {bytes : List UInt8}
    {added : List (Relay.Message Hash Transaction)} (wire : OnWire (added.map wireMessage) bytes)
    (out : n'.calls w c = n.calls w c ++ bytes) (back : n'.replies w c = n.replies w c) :
    n'.Linked w c { r with made := r.made ++ txs, out := r.out ++ added, up := n'.Up w c } where
  made := by rw [made, linked.made]
  heard := linked.heard.trans heard.symm
  up := Iff.rfl
  out := by
    rw [toListener, out, fromCaller, List.drop_append_of_le_length linked.fromCaller, List.map_append]
    exact linked.out.append wire
  back := by
    rw [toCaller, back, fromListener]
    exact linked.back
  fromCaller := by
    rw [out, fromCaller, List.length_append]
    exact Nat.le_add_right_of_le linked.fromCaller
  fromListener := by
    rw [back, fromListener]
    exact linked.fromListener

theorem Linked.cut {c : γ} {r : Relay Hash Transaction} (linked : n.Linked w c r) {n' : Network ι γ}
    (made : n'.made (w.caller c) = n.made (w.caller c)) (heard : n'.heard c = n.heard c)
    (fromCaller : n'.fromCaller c = n.fromCaller c) (fromListener : n'.fromListener c = n.fromListener c)
    (out : n'.calls w c = n.calls w c) (back : n'.replies w c = n.replies w c) :
    n'.Linked w c { r with up := n'.Up w c } := by
  have grown := linked.grown (made.trans (List.append_nil _).symm) heard fromCaller fromListener
    (show OnWire ([].map wireMessage) [] from .nil) (out.trans (List.append_nil _).symm) back
  simpa using grown

end Linked

section Steps

variable [WalletCrates] [DecidableEq ι] [DecidableEq γ]

/-- The listener or the caller handles a message of this size. -/
def listen (n : Network ι γ) (c : γ) (message : NodeTurn) (size : Nat) : Network ι γ :=
  { n with
    node := Function.update n.node (w.listener c) ((n.node (w.listener c)).step message)
    fromCaller := Function.update n.fromCaller c (n.fromCaller c + size)
    heard := Function.update n.heard c (n.heard c ++ message.transaction.toList) }

def call (n : Network ι γ) (c : γ) (message : NodeTurn) (size : Nat) : Network ι γ :=
  { n with
    node := Function.update n.node (w.caller c) ((n.node (w.caller c)).step message)
    fromListener := Function.update n.fromListener c (n.fromListener c + size) }

def step (n : Network ι γ) (turn : NetworkTurn ι γ) : Network ι γ :=
  match turn.event with
  | .request i event =>
    { n with
      node := Function.update n.node i ((n.node i).step (turn.of (.request event)))
      made := Function.update n.made i (n.made i ++ ((n.node i).paymentOf (turn.of (.request event))).toList) }
  | .disconnect i peer =>
    { n with node := Function.update n.node i ((n.node i).step (turn.of (.disconnect peer))) }
  | .listenerReads c =>
    if (n.node (w.listener c)).Running (w.listenerPeer c) then
      match nextMessage (n.toListener w c) with
      | some ((commandName, payload), size) =>
        n.listen w c (turn.of (.message (w.listenerPeer c) commandName payload)) size
      | none => n
    else n
  | .callerReads c =>
    if (n.node (w.caller c)).Running (w.callerPeer c) then
      match nextMessage (n.toCaller w c) with
      | some ((commandName, payload), size) =>
        n.call w c (turn.of (.message (w.callerPeer c) commandName payload)) size
      | none => n
    else n

variable {w} {n : Network ι γ}

section Update

variable {i : ι} {s' : RunningNode}

omit [WalletCrates] [DecidableEq γ]

theorem written_update {j : ι} {q : Nat} (unchanged : j = i → s'.written q = (n.node i).written q) :
    (Function.update n.node i s' j).written q = (n.node j).written q := by
  rw [Function.update_apply]
  split_ifs with here
  · rw [unchanged here, here]
  · rfl

theorem running_update (running : ∀ q, s'.Running q → (n.node i).Running q) {j : ι} {q : Nat}
    (still : (Function.update n.node i s' j).Running q) : (n.node j).Running q := by
  rw [Function.update_apply] at still
  split_ifs at still with here
  · exact here ▸ running q still
  · exact still

omit [WalletCrates] [DecidableEq γ] in
theorem up_before {n' : Network ι γ} (node : n'.node = Function.update n.node i s')
    (running : ∀ q, s'.Running q → (n.node i).Running q) {c : γ} (up : n'.Up w c) : n.Up w c := by
  obtain ⟨caller, listener⟩ := up
  rw [node] at caller listener
  exact ⟨running_update running caller, running_update running listener⟩

end Update

variable {start : ι → Nat} {relay relay' : γ → Relay Hash Transaction} {n' : Network ι γ} {i : ι}
  {s' : RunningNode}

omit [WalletCrates] [DecidableEq γ] in
theorem forall_node (P : ι → RunningNode → Prop) (node : n'.node = Function.update n.node i s') (here : P i s')
    (elsewhere : ∀ j, j ≠ i → P j (n.node j)) (j : ι) : P j (n'.node j) := by
  rw [node]
  exact (Function.forall_update_iff n.node P).mpr ⟨here, elsewhere⟩ j

omit [DecidableEq ι] [DecidableEq γ] in
theorem announce_pending_cases (tx : Transaction) (account : Account) :
    (account.announce tx tx.txOut).pendingTransactions = account.pendingTransactions ∨
      (account.announce tx tx.txOut).pendingTransactions = account.pendingTransactions ++ [tx] := by
  rw [Account.announce]
  split_ifs
  · exact .inr rfl
  · exact .inl rfl

omit [DecidableEq ι] [DecidableEq γ] in
theorem announced_pending {tx : Transaction} {account : Account} (pays : involves account.address tx.txOut) :
    tx ∈ (account.announce tx tx.txOut).pendingTransactions := by
  by_cases pending : tx ∈ account.pendingTransactions
  · rwa [Account.announce_pending pending]
  · have added : account.announce tx tx.txOut = account.addPending tx := if_pos ⟨pending, pays⟩
    rw [added]
    exact List.mem_append_right _ List.mem_cons_self

/-- A listener at the node takes in a payment of its caller, or the accounts stay as they are. -/
def TakesIn (w : Wiring ι γ) (n : Network ι γ) (i : ι) (f : Account → Account) : Prop :=
  f = id ∨ ∃ tx c, w.listener c = i ∧ tx ∈ n.made (w.caller c) ∧ f = Account.announce tx tx.txOut

section Turned

variable {p : Nat} {bytes : List UInt8} {received : List Hash} {f : Account → Account}

omit [DecidableEq ι] [DecidableEq γ]

theorem TakesIn.outputs (added : TakesIn w n i f) (account : Account) : (f account).utxoSet = account.utxoSet := by
  rcases added with rfl | ⟨tx, _, _, _, rfl⟩
  · rfl
  · exact (account.announce_outputs tx tx.txOut).2

theorem TakesIn.address (added : TakesIn w n i f) (account : Account) : (f account).address = account.address := by
  rcases added with rfl | ⟨tx, _, _, _, rfl⟩
  · rfl
  · exact account.announce_address tx tx.txOut

theorem TakesIn.pending (added : TakesIn w n i f) (account : Account) :
    (f account).pendingTransactions = account.pendingTransactions ∨
      ∃ tx c, w.listener c = i ∧ tx ∈ n.made (w.caller c) ∧
        (f account).pendingTransactions = account.pendingTransactions ++ [tx] := by
  rcases added with rfl | ⟨tx, c, listens, paid, rfl⟩
  · exact .inl rfl
  · exact (announce_pending_cases tx account).imp_right fun grown => ⟨tx, c, listens, paid, grown⟩

theorem Sound.turned_held (sound : n.Sound w start relay) (turned : (n.node i).Turned s' p bytes received f)
    (orderly : Orderly n.made) (added : TakesIn w n i f) {tx : Transaction} (paid : tx ∈ n.made i) :
    s'.pendingTransactions.filter (·.hash = tx.hash) = [tx] := by
  -- what a listener takes in was paid by another node, so it has another hash
  have unchanged (account : SpendingAccount) :
      (f account.toAccount).pendingTransactions.filter (·.hash = tx.hash) =
        account.pendingTransactions.filter (·.hash = tx.hash) := by
    rcases added.pending account.toAccount with same | ⟨tx', c, listens, paid', same⟩
    · rw [same]
    · have other : ¬tx'.hash = tx.hash := fun equal =>
        w.apart c ((orderly.own _ _ tx' paid' tx paid equal).trans listens.symm)
      rw [same, List.filter_append, List.filter_cons_of_neg (by simpa using other), List.filter_nil,
        List.append_nil]
  rw [turned.pendingTransactions, List.filter_flatMap]
  simp only [unchanged]
  rw [← List.filter_flatMap]
  exact sound.held i tx paid

theorem Sound.turned_pending (sound : n.Sound w start relay) (turned : (n.node i).Turned s' p bytes received f)
    (added : TakesIn w n i f) {tx : Transaction} (member : tx ∈ s'.pendingTransactions) :
    tx ∈ n.made i ∨ ∃ c, w.listener c = i ∧ tx ∈ n.made (w.caller c) := by
  rw [turned.pendingTransactions] at member
  obtain ⟨account, listed, member⟩ := List.mem_flatMap.mp member
  have old (member : tx ∈ account.pendingTransactions) :=
    sound.pending i tx (List.mem_flatMap.mpr ⟨account, listed, member⟩)
  rcases added.pending account.toAccount with same | ⟨tx', c, listens, paid, same⟩ <;> rw [same] at member
  · exact old member
  · refine (List.mem_append.mp member).elim old fun last => .inr ⟨c, listens, ?_⟩
    exact List.mem_singleton.mp last ▸ paid

theorem Sound.turned_real (sound : n.Sound w start relay) (turned : (n.node i).Turned s' p bytes received f)
    (added : TakesIn w n i f) : ∀ account ∈ s'.wallet.accounts, RealOutputs account.utxoSet := by
  intro account member
  rw [turned.accounts] at member
  obtain ⟨before, listed, rfl⟩ := List.mem_map.mp member
  exact (added.outputs before.toAccount).symm ▸ sound.real i before listed

theorem Sound.turned_arrived (sound : n.Sound w start relay) (turned : (n.node i).Turned s' p bytes received f)
    (added : TakesIn w n i f) {c : γ} (listens : w.listener c = i) (up : n.Up w c) {tx : Transaction}
    (arrives : tx ∈ n.heard c ∨ f = Account.announce tx tx.txOut) {k : Nat} (early : k < start i)
    {account : SpendingAccount} (stored : s'.wallet.accounts[k]? = some account)
    (pays : involves account.address tx.txOut) : tx ∈ account.pendingTransactions := by
  rw [turned.accounts, List.getElem?_map] at stored
  obtain ⟨old, found, rfl⟩ := Option.map_eq_some_iff.mp stored
  have concerned : involves old.address tx.txOut := added.address old.toAccount ▸ pays
  rcases arrives with heard | rfl
  · subst listens
    have held : tx ∈ old.pendingTransactions := sound.arrived c up tx heard k early old found concerned
    rcases added.pending old.toAccount with same | ⟨_, _, _, _, same⟩
    · exact same.symm ▸ held
    · exact same.symm ▸ List.mem_append_left _ held
  · exact announced_pending concerned

end Turned

omit [DecidableEq γ] in
theorem Sound.turned (sound : n.Sound w start relay) {p : Nat} {bytes : List UInt8} {received : List Hash}
    {f : Account → Account} (turned : (n.node i).Turned s' p bytes received f)
    (node : n'.node = Function.update n.node i s') (made : n'.made = n.made) (orderly : Orderly n.made)
    (linked : ∀ c, n'.Linked w c (relay' c))
    (steps : Reached relay relay')
    (announced : ∀ c, ∀ hash ∈ (relay' c).announced, hash ∈ (relay c).announced)
    (news : ∀ hash ∈ received, ∃ c, w.listener c = i ∧ hash ∈ (n.made (w.caller c)).map Transaction.hash ∧
      ((relay' c).up → hash ∉ (relay' c).announced))
    (added : TakesIn w n i f)
    (arrives : ∀ c, n'.Up w c → ∀ tx ∈ n'.heard c,
      tx ∈ n.heard c ∨ w.listener c = i ∧ f = Account.announce tx tx.txOut) :
    n'.Sound w start relay' := by
  have before {j : ι} {hash : Hash} (old : hash ∈ (n.node j).transactionsReceived) : ∃ c, w.listener c = j ∧
      hash ∈ (n.made (w.caller c)).map Transaction.hash ∧ ((relay' c).up → hash ∉ (relay' c).announced) := by
    obtain ⟨c, listens, paid, unread⟩ := sound.known j hash old
    exact ⟨c, listens, paid, fun up listed => unread (Relay.still_up (steps c) up) (announced c hash listed)⟩
  constructor
  case linked => exact linked
  case accounted => exact fun c => (sound.accounted c).run (steps c)
  case known =>
    rw [made]
    refine forall_node (fun j s => ∀ hash ∈ s.transactionsReceived, ∃ c, w.listener c = j ∧
      hash ∈ (n.made (w.caller c)).map Transaction.hash ∧ ((relay' c).up → hash ∉ (relay' c).announced)) node
      (fun hash member => ?_) fun j _ hash => before
    rw [turned.transactionsReceived] at member
    exact (List.mem_append.mp member).elim before (news hash)
  case held =>
    rw [made]
    exact forall_node (fun j s => ∀ tx ∈ n.made j, s.pendingTransactions.filter (·.hash = tx.hash) = [tx]) node
      (fun tx => sound.turned_held turned orderly added) fun j _ => sound.held j
  case pending =>
    rw [made]
    exact forall_node (fun j s => ∀ tx ∈ s.pendingTransactions,
      tx ∈ n.made j ∨ ∃ c, w.listener c = j ∧ tx ∈ n.made (w.caller c)) node
      (fun tx => sound.turned_pending turned added) fun j _ => sound.pending j
  case wellFormed => exact fun j tx paid => sound.wellFormed j tx (made ▸ paid)
  case real =>
    exact forall_node (fun _ s => ∀ account ∈ s.wallet.accounts, RealOutputs account.utxoSet) node
      (sound.turned_real turned added) fun j _ => sound.real j
  case sets =>
    exact forall_node (fun _ s => RealSet s.blockchain.utxoSet) node (turned.blockchain ▸ sound.sets i)
      fun j _ => sound.sets j
  case connected =>
    exact forall_node (fun j s => s.wallet.nodesSender.length = w.connected j) node
      (turned.connected.trans (sound.connected i)) fun j _ => sound.connected j
  case first =>
    refine forall_node (fun j s => start j ≤ s.wallet.accounts.length) node ?_ fun j _ => sound.first j
    rw [turned.accounts, List.length_map]
    exact sound.first i
  case arrived =>
    intro c up tx heard k early account stored pays
    have upBefore := up_before node turned.running up
    have cases := arrives c up tx heard
    by_cases here : w.listener c = i
    · rw [here, node, Function.update_self] at stored
      exact sound.turned_arrived turned added here upBefore (cases.imp_right And.right) (here ▸ early) stored pays
    · rw [node, Function.update_of_ne here] at stored
      exact sound.arrived c upBefore tx (cases.resolve_right fun new => here new.1) k early account stored pays

omit [DecidableEq γ] in
theorem Linked.other {c : γ} {r : Relay Hash Transaction} (linked : n.Linked w c r) {p : Nat} {bytes : List UInt8}
    {received : List Hash} {f : Account → Account} (turned : (n.node i).Turned s' p bytes received f)
    (node : n'.node = Function.update n.node i s') (made : n'.made = n.made) (heard : n'.heard c = n.heard c)
    (fromCaller : n'.fromCaller c = n.fromCaller c) (fromListener : n'.fromListener c = n.fromListener c)
    (calls : w.caller c = i → w.callerPeer c ≠ p) (listens : w.listener c = i → w.listenerPeer c ≠ p) :
    n'.Linked w c { r with up := n'.Up w c } := by
  refine linked.cut (congrFun made _) heard fromCaller fromListener ?_ ?_
  · rw [Network.calls, Network.calls, node, written_update fun here => turned.others _ (calls here)]
  · rw [replies, replies, node, written_update fun here => turned.others _ (listens here)]

omit [DecidableEq γ] in
theorem Linked.goes_down {c : γ} {r : Relay Hash Transaction} (linked : n.Linked w c r)
    (node : n'.node = Function.update n.node i s') (running : ∀ q, s'.Running q → (n.node i).Running q) :
    Relay.Step Transaction.hash r { r with up := n'.Up w c } :=
  .cut r _ fun up => linked.up.mpr (up_before node running up)

theorem Sound.moved (sound : n.Sound w start relay) (orderly : Orderly n.made) {c : γ} {p : Nat}
    {bytes : List UInt8} {received : List Hash} {f : Account → Account}
    (turned : (n.node i).Turned s' p bytes received f) (node : n'.node = Function.update n.node i s')
    (made : n'.made = n.made) (heard : ∀ c', c' ≠ c → n'.heard c' = n.heard c')
    (fromCaller : ∀ c', c' ≠ c → n'.fromCaller c' = n.fromCaller c')
    (fromListener : ∀ c', c' ≠ c → n'.fromListener c' = n.fromListener c')
    (calls : ∀ c', c' ≠ c → w.caller c' = i → w.callerPeer c' ≠ p)
    (listens : ∀ c', c' ≠ c → w.listener c' = i → w.listenerPeer c' ≠ p)
    {r' : Relay Hash Transaction} (linked : n'.Linked w c r')
    (steps : Relation.ReflTransGen (Relay.Step Transaction.hash) (relay c) r')
    (announced : ∀ hash ∈ r'.announced, hash ∈ (relay c).announced)
    (news : ∀ hash ∈ received, w.listener c = i ∧ hash ∈ (n.made (w.caller c)).map Transaction.hash ∧
      (r'.up → hash ∉ r'.announced))
    (added : TakesIn w n i f)
    (arrives : n'.Up w c → ∀ tx ∈ n'.heard c,
      tx ∈ n.heard c ∨ w.listener c = i ∧ f = Account.announce tx tx.txOut) :
    ∃ relay', n'.Sound w start relay' ∧ Reached relay relay' := by
  have other {c' : γ} (apart : c' ≠ c) : n'.Linked w c' { relay c' with up := n'.Up w c' } :=
    (sound.linked c').other turned node made (heard c' apart) (fromCaller c' apart) (fromListener c' apart)
      (calls c' apart) (listens c' apart)
  have down (c' : γ) : Relay.Step Transaction.hash (relay c') { relay c' with up := n'.Up w c' } :=
    (sound.linked c').goes_down node turned.running
  have all : ∀ c', Relation.ReflTransGen (Relay.Step Transaction.hash) (relay c')
      (Function.update (fun c' => { relay c' with up := n'.Up w c' }) c r' c') := fun c' => by
    rw [Function.update_apply]
    split_ifs with same
    · exact same ▸ steps
    · exact .single (down c')
  refine ⟨Function.update (fun c' => { relay c' with up := n'.Up w c' }) c r', ?_, all⟩
  refine sound.turned turned node made orderly (fun c' => ?_) all (fun c' hash listed => ?_)
    (fun hash member => ?_) added fun c' up tx member => ?_
  · rw [Function.update_apply]
    split_ifs with same
    · exact same ▸ linked
    · exact other same
  · rw [Function.update_apply] at listed
    split_ifs at listed with same
    · exact same ▸ announced hash listed
    · exact listed
  · obtain ⟨here, paid, unread⟩ := news hash member
    refine ⟨c, here, paid, ?_⟩
    rw [Function.update_self]
    exact unread
  · rcases eq_or_ne c' c with rfl | apart
    · exact arrives up tx member
    · exact .inl (heard c' apart ▸ member)

@[simp] theorem listen_listener (n : Network ι γ) (c : γ) (message : NodeTurn) (size : Nat) :
    (n.listen w c message size).node (w.listener c) = (n.node (w.listener c)).step message :=
  Function.update_self ..

@[simp] theorem listen_caller (n : Network ι γ) (c : γ) (message : NodeTurn) (size : Nat) :
    (n.listen w c message size).node (w.caller c) = n.node (w.caller c) := Function.update_of_ne (w.apart c) ..

@[simp] theorem listen_heard (n : Network ι γ) (c : γ) (message : NodeTurn) (size : Nat) :
    (n.listen w c message size).heard c = n.heard c ++ message.transaction.toList := Function.update_self ..

@[simp] theorem call_caller (n : Network ι γ) (c : γ) (message : NodeTurn) (size : Nat) :
    (n.call w c message size).node (w.caller c) = (n.node (w.caller c)).step message := Function.update_self ..

@[simp] theorem call_listener (n : Network ι γ) (c : γ) (message : NodeTurn) (size : Nat) :
    (n.call w c message size).node (w.listener c) = n.node (w.listener c) :=
  Function.update_of_ne (Ne.symm (w.apart c)) ..

theorem Linked.listened {c : γ} {r : Relay Hash Transaction} (linked : n.Linked w c r) {message : NodeTurn}
    {bytes : List UInt8} {received asked : List Hash} {f : Account → Account}
    (turned : (n.node (w.listener c)).Turned ((n.node (w.listener c)).step message) (w.listenerPeer c) bytes
      received f) {size : Nat} (inside : size ≤ (n.toListener w c).length)
    {rest : List (Relay.Message Hash Transaction)}
    (later : OnWire (rest.map wireMessage) ((n.toListener w c).drop size))
    (wire : OnWire (asked.map requestPayment) bytes) :
    (n.listen w c message size).Linked w c
      { r with
        out := rest, back := r.back ++ asked, heard := r.heard ++ message.transaction.toList
        up := (n.listen w c message size).Up w c } := by
  have read : (n.listen w c message size).fromCaller c = n.fromCaller c + size := Function.update_self ..
  have called : (n.listen w c message size).calls w c = n.calls w c := by rw [calls, calls, listen_caller]
  have replied : (n.listen w c message size).replies w c = n.replies w c ++ bytes := by
    rw [replies, replies, listen_listener, turned.written]
  constructor
  case made => exact linked.made
  case heard => rw [listen_heard, ← linked.heard]
  case up => exact Iff.rfl
  case out =>
    rw [toListener, called, read, ← List.drop_drop]
    exact later
  case back =>
    rw [toCaller, replied, List.map_append]
    refine (List.drop_append_of_le_length linked.fromListener).symm ▸ ?_
    exact linked.back.append wire
  case fromCaller =>
    rw [toListener, List.length_drop] at inside
    have bound := linked.fromCaller
    rw [called, read]
    omega
  case fromListener =>
    rw [replied, List.length_append]
    exact Nat.le_add_right_of_le linked.fromListener

theorem Linked.called {c : γ} {r : Relay Hash Transaction} (linked : n.Linked w c r) {message : NodeTurn}
    {bytes : List UInt8} {received : List Hash} {f : Account → Account}
    (turned : (n.node (w.caller c)).Turned ((n.node (w.caller c)).step message) (w.callerPeer c) bytes received f)
    {size : Nat} (inside : size ≤ (n.toCaller w c).length) {rest : List Hash}
    (later : OnWire (rest.map requestPayment) ((n.toCaller w c).drop size))
    {added : List (Relay.Message Hash Transaction)} (wire : OnWire (added.map wireMessage) bytes) :
    (n.call w c message size).Linked w c
      { r with out := r.out ++ added, back := rest, up := (n.call w c message size).Up w c } := by
  have read : (n.call w c message size).fromListener c = n.fromListener c + size := Function.update_self ..
  have called : (n.call w c message size).calls w c = n.calls w c ++ bytes := by
    rw [calls, calls, call_caller, turned.written]
  have replied : (n.call w c message size).replies w c = n.replies w c := by rw [replies, replies, call_listener]
  constructor
  case made => exact linked.made
  case heard => exact linked.heard
  case up => exact Iff.rfl
  case out =>
    rw [toListener, called, List.map_append]
    refine (List.drop_append_of_le_length linked.fromCaller).symm ▸ ?_
    exact linked.out.append wire
  case back =>
    rw [toCaller, replied, read, ← List.drop_drop]
    exact later
  case fromCaller =>
    rw [called, List.length_append]
    exact Nat.le_add_right_of_le linked.fromCaller
  case fromListener =>
    rw [toCaller, List.length_drop] at inside
    have bound := linked.fromListener
    rw [replied, read]
    omega

omit [WalletCrates] [DecidableEq ι] [DecidableEq γ] in
theorem called_apart {c c' : γ} (same : w.caller c' = w.listener c) : w.callerPeer c' ≠ w.listenerPeer c :=
  Nat.ne_of_lt (Nat.lt_of_lt_of_le (w.outgoing c') (same ▸ w.incoming c))

theorem Sound.announced (sound : n.Sound w start relay) (orderly : Orderly n.made) {c : γ}
    (running : (n.node (w.listener c)).Running (w.listenerPeer c)) {hash : Hash}
    {rest : List (Relay.Message Hash Transaction)} (next : (relay c).out = .announce hash :: rest)
    {message : NodeTurn}
    (reads : message.event = .message (w.listenerPeer c) "inv" (announcePayment hash).2) {size : Nat}
    (inside : size ≤ (n.toListener w c).length)
    (later : OnWire (rest.map wireMessage) ((n.toListener w c).drop size)) :
    ∃ relay', (n.listen w c message size).Sound w start relay' ∧ Reached relay relay' := by
  have linked := sound.linked c
  have accounted := sound.accounted c
  obtain ⟨bytes, wire, turned, _⟩ := RunningNode.inv_turn running reads
  have none : message.transaction = Option.none := by simp [NodeTurn.transaction, reads]
  have listed : hash ∈ (relay c).announced := by
    rw [Relay.announced, next]
    exact List.mem_cons_self
  have paid : hash ∈ (n.made (w.caller c)).map Transaction.hash :=
    linked.made ▸ accounted.keys hash (List.mem_append_right _ listed)
  have fewer (hash' : Hash) (member : hash' ∈ Relay.announcements rest) : hash' ∈ (relay c).announced := by
    rw [Relay.announced, next]
    exact List.mem_cons_of_mem _ member
  have distinct : ((relay c).made.map Transaction.hash).Nodup := linked.made ▸ orderly.nodup _
  have moved := linked.listened turned inside later wire
  refine sound.moved orderly turned rfl rfl (fun c' other => Function.update_of_ne other ..)
    (fun c' other => Function.update_of_ne other ..) (fun _ _ => rfl) (fun _ _ => called_apart)
    (fun c' other same => mt (w.listenerOwn c' c same) other) moved ?_ fewer ?_ (.inl rfl)
    fun _ tx member => .inl ?_
  · have down : Relay.Step Transaction.hash (relay c) { relay c with up := (n.listen w c message size).Up w c } :=
      linked.goes_down rfl turned.running
    rw [none, Option.toList_none, List.append_nil]
    refine .tail (.single down) ?_
    by_cases known : hash ∈ (n.node (w.listener c)).transactionsReceived
    · rw [if_pos known, List.append_nil]
      -- what another thread has seen is no payment of this caller, as long as this connection is up
      refine Relay.Step.ignore next fun up => ?_
      obtain ⟨c', listens, paid', unread⟩ := sound.known _ hash known
      obtain ⟨tx, made, same⟩ := List.mem_map.mp paid
      obtain ⟨tx', made', same'⟩ := List.mem_map.mp paid'
      have one : c' = c := w.single c' c (orderly.own _ _ tx' made' tx made (same'.trans same.symm)) listens
      subst one
      exact unread (Relay.still_up (.single down) up) listed
    · rw [if_neg known]
      exact Relay.Step.ask next
  · intro hash' member
    obtain rfl : hash' = hash := by
      split_ifs at member
      · exact absurd member List.not_mem_nil
      · exact List.mem_singleton.mp member
    refine ⟨rfl, paid, fun up => ?_⟩
    have nodup := (accounted.fresh (linked.up.mpr (up_before rfl turned.running up)) distinct).1
    rw [Relay.announced, next] at nodup
    exact (List.nodup_cons.mp nodup).1
  · rwa [listen_heard, none, Option.toList_none, List.append_nil] at member

theorem Sound.delivered (sound : n.Sound w start relay) (orderly : Orderly n.made) {c : γ}
    (running : (n.node (w.listener c)).Running (w.listenerPeer c)) {tx : Transaction}
    {rest : List (Relay.Message Hash Transaction)} (next : (relay c).out = .deliver tx :: rest)
    {message : NodeTurn}
    (reads : message.event = .message (w.listenerPeer c) "tx" (deliverPayment tx).2) {size : Nat}
    (inside : size ≤ (n.toListener w c).length)
    (later : OnWire (rest.map wireMessage) ((n.toListener w c).drop size)) :
    ∃ relay', (n.listen w c message size).Sound w start relay' ∧ Reached relay relay' := by
  have linked := sound.linked c
  have sent : tx ∈ (relay c).sent := by
    rw [Relay.sent, next]
    exact List.mem_append_right _ List.mem_cons_self
  have paid : tx ∈ n.made (w.caller c) := linked.made ▸ (sound.accounted c).items tx sent
  have valid := sound.wellFormed _ tx paid
  have decoded : Transaction.unmarshalling tx.marshalling 0 = .ok (tx, tx.marshalling.length) := by
    simpa using Transaction.unmarshalling_reads valid [] []
  have brought : message.transaction = some tx := by
    simp [NodeTurn.transaction, reads, deliverPayment, decoded, Except.toOption]
  have step {f : Account → Account}
      (turned : (n.node (w.listener c)).Turned ((n.node (w.listener c)).step message) (w.listenerPeer c) [] [] f)
      (added : f = id ∨ ∃ tx c', w.listener c' = w.listener c ∧ tx ∈ n.made (w.caller c') ∧
        f = Account.announce tx tx.txOut)
      (arrives : ((n.node (w.listener c)).step message).Running (w.listenerPeer c) →
        f = Account.announce tx tx.txOut) :
      ∃ relay', (n.listen w c message size).Sound w start relay' ∧ Reached relay relay' := by
    have moved := linked.listened turned inside later (show OnWire ([].map requestPayment) [] from .nil)
    refine sound.moved orderly turned rfl rfl (fun c' other => Function.update_of_ne other ..)
      (fun c' other => Function.update_of_ne other ..) (fun _ _ => rfl) (fun _ _ => called_apart)
      (fun c' other same => mt (w.listenerOwn c' c same) other) moved ?_ (fun hash' member => ?_)
      (fun hash' member => absurd member List.not_mem_nil) added fun up tx' member => ?_
    · rw [brought, Option.toList_some, List.append_nil]
      exact .tail (.single (linked.goes_down rfl turned.running)) (Relay.Step.hear next)
    · rw [Relay.announced, next]
      exact member
    · rw [listen_heard, brought, Option.toList_some] at member
      refine (List.mem_append.mp member).imp_right fun last => ?_
      obtain rfl := List.mem_singleton.mp last
      exact ⟨rfl, arrives (listen_listener n c message size ▸ up.2)⟩
  rcases RunningNode.tx_turn running valid reads with turned | ⟨turned, ended⟩
  · exact step turned (.inr ⟨tx, c, rfl, paid, rfl⟩) fun _ => rfl
  · exact step turned (.inl rfl) fun still => absurd still ended

theorem Sound.listenerReads (sound : n.Sound w start relay) (orderly : Orderly n.made)
    {turn : NetworkTurn ι γ} {c : γ} (happens : turn.event = .listenerReads c) :
    ∃ relay', (n.step w turn).Sound w start relay' ∧ Reached relay relay' := by
  have stays : ∃ relay', n.Sound w start relay' ∧ Reached relay relay' := ⟨relay, sound, fun _ => .refl⟩
  rw [step, happens]
  dsimp only
  split_ifs with running
  swap
  · exact stays
  have front := (sound.linked c).out
  rcases next : (relay c).out with _ | ⟨hash | tx, rest⟩ <;> rw [next] at front
  · rw [onWire_nil front, next_message_nil]
    exact stays
  · obtain ⟨size, read, later, inside⟩ := next_message_onWire (sendable_announce hash) front
    rw [read]
    exact sound.announced orderly running next rfl inside later
  · have sent : tx ∈ (relay c).sent := by
      rw [Relay.sent, next]
      exact List.mem_append_right _ List.mem_cons_self
    have paid : tx ∈ n.made (w.caller c) := (sound.linked c).made ▸ (sound.accounted c).items tx sent
    obtain ⟨size, read, later, inside⟩ := next_message_onWire (sendable_deliver (orderly.fits _ tx paid)) front
    rw [read]
    exact sound.delivered orderly running next rfl inside later

theorem Sound.requested (sound : n.Sound w start relay) (orderly : Orderly n.made) {c : γ}
    (running : (n.node (w.caller c)).Running (w.callerPeer c)) {hash : Hash} {rest : List Hash}
    (next : (relay c).back = hash :: rest) {message : NodeTurn}
    (reads : message.event = .message (w.callerPeer c) "getdata" (requestPayment hash).2) {size : Nat}
    (inside : size ≤ (n.toCaller w c).length)
    (later : OnWire (rest.map requestPayment) ((n.toCaller w c).drop size)) :
    ∃ relay', (n.call w c message size).Sound w start relay' ∧ Reached relay relay' := by
  have linked := sound.linked c
  have paid : hash ∈ (n.made (w.caller c)).map Transaction.hash := by
    refine linked.made ▸ (sound.accounted c).keys hash (List.mem_append_left _ ?_)
    rw [next]
    exact List.mem_cons_self
  obtain ⟨tx, made, rfl⟩ := List.mem_map.mp paid
  have step (added : List (Relay.Message Hash Transaction)) {bytes : List UInt8}
      (turned : (n.node (w.caller c)).Turned ((n.node (w.caller c)).step message) (w.callerPeer c) bytes [] id)
      (wire : OnWire (added.map wireMessage) bytes) (silent : Relay.announcements added = [])
      (answers : Relay.Step Transaction.hash { relay c with up := (n.call w c message size).Up w c }
        { relay c with
          out := (relay c).out ++ added, back := rest
          up := (n.call w c message size).Up w c }) :
      ∃ relay', (n.call w c message size).Sound w start relay' ∧ Reached relay relay' := by
    refine sound.moved orderly turned rfl rfl (fun _ _ => rfl) (fun _ _ => rfl)
      (fun c' other => Function.update_of_ne other ..) (fun c' other same => mt (w.callerOwn c' c same) other)
      (fun _ _ same => (called_apart same.symm).symm) (linked.called turned inside later wire)
      (.tail (.single (linked.goes_down rfl turned.running)) answers) (fun hash' member => ?_)
      (fun hash' member => absurd member List.not_mem_nil) (.inl rfl) fun _ _ => .inl
    rw [Relay.announced, Relay.announcements_append, silent, List.append_nil] at member
    exact member
  have reads := RunningNode.getdata_turn running reads
  rw [sound.held _ tx made] at reads
  rcases reads with ⟨bytes, wire, turned⟩ | ⟨turned, ended⟩
  · refine step [.deliver tx] turned wire rfl (Relay.Step.answer next ?_)
    exact linked.made.symm ▸ made
  · refine step [] turned .nil rfl ?_
    rw [List.append_nil]
    refine Relay.Step.refuse next fun up => ended ?_
    have caller : ((n.call w c message size).node (w.caller c)).Running (w.callerPeer c) := up.1
    rwa [call_caller] at caller

theorem Sound.callerReads (sound : n.Sound w start relay) (orderly : Orderly n.made)
    {turn : NetworkTurn ι γ} {c : γ} (happens : turn.event = .callerReads c) :
    ∃ relay', (n.step w turn).Sound w start relay' ∧ Reached relay relay' := by
  have stays : ∃ relay', n.Sound w start relay' ∧ Reached relay relay' := ⟨relay, sound, fun _ => .refl⟩
  rw [step, happens]
  dsimp only
  split_ifs with running
  swap
  · exact stays
  have front := (sound.linked c).back
  rcases next : (relay c).back with _ | ⟨hash, rest⟩ <;> rw [next] at front
  · rw [onWire_nil front, next_message_nil]
    exact stays
  · obtain ⟨size, read, later, inside⟩ := next_message_onWire (sendable_request hash) front
    rw [read]
    exact sound.requested orderly running next rfl inside later

omit [DecidableEq γ] in
theorem Linked.asked {c : γ} {r : Relay Hash Transaction} (linked : n.Linked w c r) {payment : Option Transaction}
    (asked : (n.node i).Asked s' payment) (connected : (n.node i).wallet.nodesSender.length = w.connected i)
    (node : n'.node = Function.update n.node i s')
    (made : n'.made = Function.update n.made i (n.made i ++ payment.toList))
    (heard : n'.heard = n.heard) (fromCaller : n'.fromCaller = n.fromCaller)
    (fromListener : n'.fromListener = n.fromListener) :
    ∃ r', n'.Linked w c r' ∧ Relation.ReflTransGen (Relay.Step Transaction.hash) r r' ∧
      ∀ hash ∈ r'.announced, hash ∈ r.announced ∨ w.caller c = i ∧ ∃ tx, payment = some tx ∧ hash = tx.hash := by
  have down : Relay.Step Transaction.hash r { r with up := n'.Up w c } := linked.goes_down node asked.running
  have silent : n'.replies w c = n.replies w c := by
    rw [replies, replies, node, written_update]
    rintro rfl
    rcases pays : payment with _ | tx
    · exact (asked.unpaid pays).1 _
    · obtain ⟨_, _, _, sent⟩ := asked.paid tx pays
      exact (sent _).2.2 (connected ▸ w.incoming c)
  by_cases pays : w.caller c = i ∧ ∃ tx, payment = some tx
  · obtain ⟨rfl, tx, pays⟩ := pays
    obtain ⟨_, bytes, wire, sent⟩ := asked.paid tx pays
    have paid : n'.made (w.caller c) = n.made (w.caller c) ++ [tx] := by
      rw [made, Function.update_self, pays, Option.toList_some]
    have here : n'.node (w.caller c) = s' := by rw [node, Function.update_self]
    have called : n'.calls w c = s'.written (w.callerPeer c) := by rw [calls, here]
    have announces (grown : s'.written (w.callerPeer c) = n.calls w c ++ bytes) :
        ∃ r', n'.Linked w c r' ∧ Relation.ReflTransGen (Relay.Step Transaction.hash) r r' ∧
          ∀ hash ∈ r'.announced, hash ∈ r.announced ∨
            w.caller c = w.caller c ∧ ∃ tx, payment = some tx ∧ hash = tx.hash := by
      have announcement : OnWire ([.announce tx.hash].map wireMessage) bytes := wire
      refine ⟨_, linked.grown paid (congrFun heard c) (congrFun fromCaller c) (congrFun fromListener c)
        announcement (called.trans grown) silent, .tail (.single down) (Relay.Step.make _ tx),
        fun hash listed => ?_⟩
      rw [Relay.announced, Relay.announcements_append] at listed
      refine (List.mem_append.mp listed).imp_right fun last => ⟨rfl, tx, pays, ?_⟩
      exact List.mem_singleton.mp last
    by_cases running : (n.node (w.caller c)).Running (w.callerPeer c)
    · exact announces ((sent _).2.1 (connected ▸ w.outgoing c) running)
    rcases (sent (w.callerPeer c)).1 with grown | same
    · exact announces grown
    · have lost : ¬n'.Up w c := fun up => running (asked.running _ (here ▸ up.1))
      have kept := linked.grown paid (congrFun heard c) (congrFun fromCaller c) (congrFun fromListener c)
        (show OnWire ([].map wireMessage) [] from .nil) (called.trans (same.trans (List.append_nil _).symm))
        silent
      rw [List.append_nil] at kept
      exact ⟨_, kept, .tail (.single down) (Relay.Step.withhold _ tx lost), fun hash listed => .inl listed⟩
  · refine ⟨{ r with up := n'.Up w c }, linked.cut ?_ (congrFun heard c) (congrFun fromCaller c)
      (congrFun fromListener c) ?_ silent, .single down, fun hash listed => .inl listed⟩
    · rw [made, Function.update_apply]
      split_ifs with here
      · rcases none : payment with _ | tx
        · rw [Option.toList_none, List.append_nil, here]
        · exact absurd ⟨here, tx, none⟩ pays
      · rfl
    · rw [calls, calls, node, written_update]
      intro here
      rcases none : payment with _ | tx
      · exact (asked.unpaid none).1 _
      · exact absurd ⟨here, tx, none⟩ pays

section Asked

variable {payment : Option Transaction}

omit [DecidableEq γ]

omit [WalletCrates] in
theorem made_grown {made made' : ι → List Transaction}
    (paid : made' = Function.update made i (made i ++ payment.toList)) (j : ι) : made j <+: made' j := by
  rw [paid, Function.update_apply]
  split_ifs with same
  · exact same ▸ List.prefix_append _ _
  · exact List.prefix_rfl

omit [WalletCrates] in
theorem mem_made {made made' : ι → List Transaction}
    (paid : made' = Function.update made i (made i ++ payment.toList)) {j : ι} {tx : Transaction}
    (member : tx ∈ made' j) : tx ∈ made j ∨ j = i ∧ payment = some tx := by
  rw [paid, Function.update_apply] at member
  split_ifs at member with same
  · subst same
    exact (List.mem_append.mp member).imp_right fun last => ⟨rfl, Option.mem_toList.mp last⟩
  · exact .inl member

theorem Orderly.unlike {made made' : ι → List Transaction} (orderly : Orderly made')
    (paid : made' = Function.update made i (made i ++ payment.toList)) {tx : Transaction} (pays : payment = some tx)
    {j : ι} {tx' : Transaction} (member : tx' ∈ made j) : tx'.hash ≠ tx.hash := by
  intro equal
  have here : made' i = made i ++ [tx] := by rw [paid, Function.update_self, pays, Option.toList_some]
  have last : tx ∈ made' i := here ▸ List.mem_append_right _ (List.mem_singleton_self tx)
  obtain rfl : j = i := orderly.own j i tx' ((made_grown paid j).subset member) tx last equal
  have nodup := orderly.nodup j
  rw [here, List.map_append, List.map_singleton] at nodup
  exact (List.nodup_append.mp nodup).2.2 _ (List.mem_map_of_mem member) _ (List.mem_singleton_self _) equal

theorem Sound.unlike (sound : n.Sound w start relay) (orderly : Orderly n'.made)
    (made : n'.made = Function.update n.made i (n.made i ++ payment.toList)) {tx : Transaction}
    (pays : payment = some tx) {j : ι} {tx' : Transaction} (member : tx' ∈ (n.node j).pendingTransactions) :
    tx'.hash ≠ tx.hash := by
  rcases sound.pending j tx' member with paid | ⟨c, _, paid⟩
  · exact orderly.unlike made pays paid
  · exact orderly.unlike made pays paid

theorem Sound.asked_known (sound : n.Sound w start relay) (orderly : Orderly n'.made)
    (made : n'.made = Function.update n.made i (n.made i ++ payment.toList)) (steps : Reached relay relay')
    (announced : ∀ c, ∀ hash ∈ (relay' c).announced,
      hash ∈ (relay c).announced ∨ w.caller c = i ∧ ∃ tx, payment = some tx ∧ hash = tx.hash)
    {j : ι} {hash : Hash} (old : hash ∈ (n.node j).transactionsReceived) :
    ∃ c, w.listener c = j ∧ hash ∈ (n'.made (w.caller c)).map Transaction.hash ∧
      ((relay' c).up → hash ∉ (relay' c).announced) := by
  obtain ⟨c, listens, paid, unread⟩ := sound.known j hash old
  refine ⟨c, listens, ((made_grown made _).map _).subset paid, fun up listed => ?_⟩
  rcases announced c hash listed with old | ⟨_, tx, pays, rfl⟩
  · exact unread (Relay.still_up (steps c) up) old
  · obtain ⟨tx', member, same⟩ := List.mem_map.mp paid
    exact orderly.unlike made pays member same

theorem Sound.asked_held (sound : n.Sound w start relay) (asked : (n.node i).Asked s' payment)
    (orderly : Orderly n'.made) (made : n'.made = Function.update n.made i (n.made i ++ payment.toList))
    {tx : Transaction} (member : tx ∈ n'.made i) : s'.pendingTransactions.filter (·.hash = tx.hash) = [tx] := by
  obtain ⟨front, back, before, after⟩ := asked.pendingTransactions
  rw [after, List.filter_append, List.filter_append]
  rcases mem_made made member with old | ⟨_, pays⟩
  · have held := sound.held i tx old
    have none : payment.toList.filter (·.hash = tx.hash) = [] :=
      List.filter_eq_nil_iff.mpr fun tx' listed => by
        simpa using (orderly.unlike made (Option.mem_toList.mp listed) old).symm
    rw [before, List.filter_append] at held
    rw [none, List.append_nil]
    exact held
  · have none {part : List Transaction} (inside : part ⊆ front ++ back) :
        part.filter (·.hash = tx.hash) = [] :=
      List.filter_eq_nil_iff.mpr fun tx' listed => by
        simpa using sound.unlike orderly made pays (before ▸ inside listed)
    rw [none (List.subset_append_left _ _), none (List.subset_append_right _ _), pays, Option.toList_some,
      List.filter_cons_of_pos (by simp), List.filter_nil, List.nil_append, List.append_nil]

theorem Sound.asked_pending (sound : n.Sound w start relay)
    (made : n'.made = Function.update n.made i (n.made i ++ payment.toList)) {j : ι} {tx : Transaction}
    (member : tx ∈ (n.node j).pendingTransactions) :
    tx ∈ n'.made j ∨ ∃ c, w.listener c = j ∧ tx ∈ n'.made (w.caller c) := by
  rcases sound.pending j tx member with paid | ⟨c, listens, paid⟩
  · exact .inl ((made_grown made j).subset paid)
  · exact .inr ⟨c, listens, (made_grown made _).subset paid⟩

end Asked

omit [DecidableEq γ] in
theorem Sound.asked (sound : n.Sound w start relay) {payment : Option Transaction}
    (asked : (n.node i).Asked s' payment)
    (valid : ∀ tx, payment = some tx → tx.WellFormed)
    (node : n'.node = Function.update n.node i s')
    (made : n'.made = Function.update n.made i (n.made i ++ payment.toList))
    (orderly : Orderly n'.made) (heard : n'.heard = n.heard) (fromCaller : n'.fromCaller = n.fromCaller)
    (fromListener : n'.fromListener = n.fromListener) :
    ∃ relay', n'.Sound w start relay' ∧ Reached relay relay' := by
  choose relay' linked steps announced using fun c =>
    (sound.linked c).asked asked (sound.connected i) node made heard fromCaller fromListener
  refine ⟨relay', ?_, steps⟩
  constructor
  case linked => exact linked
  case accounted => exact fun c => (sound.accounted c).run (steps c)
  case known =>
    exact forall_node (fun j s => ∀ hash ∈ s.transactionsReceived, ∃ c, w.listener c = j ∧
      hash ∈ (n'.made (w.caller c)).map Transaction.hash ∧ ((relay' c).up → hash ∉ (relay' c).announced)) node
      (fun hash member => sound.asked_known orderly made steps announced (asked.transactionsReceived ▸ member))
      fun j _ hash => sound.asked_known orderly made steps announced
  case held =>
    refine forall_node (fun j s => ∀ tx ∈ n'.made j, s.pendingTransactions.filter (·.hash = tx.hash) = [tx]) node
      (fun tx => sound.asked_held asked orderly made) fun j other tx member => sound.held j tx ?_
    exact (mem_made made member).resolve_right fun new => other new.1
  case pending =>
    refine forall_node (fun j s => ∀ tx ∈ s.pendingTransactions,
      tx ∈ n'.made j ∨ ∃ c, w.listener c = j ∧ tx ∈ n'.made (w.caller c)) node (fun tx member => ?_)
      fun j _ tx => sound.asked_pending made
    obtain ⟨front, back, before, after⟩ := asked.pendingTransactions
    have old (inside : tx ∈ front ++ back) := sound.asked_pending made (before.symm ▸ inside)
    rw [after, List.mem_append, List.mem_append] at member
    rcases member with (inside | new) | inside
    · exact old (List.mem_append_left _ inside)
    · exact .inl (made ▸ (Function.update_self i _ n.made).symm ▸ List.mem_append_right _ new)
    · exact old (List.mem_append_right _ inside)
  case wellFormed =>
    exact fun j tx member => (mem_made made member).elim (sound.wellFormed j tx) fun new => valid tx new.2
  case real =>
    exact forall_node (fun _ s => ∀ account ∈ s.wallet.accounts, RealOutputs account.utxoSet) node
      (asked.real (sound.sets i) (sound.real i)) fun j _ => sound.real j
  case sets =>
    exact forall_node (fun _ s => RealSet s.blockchain.utxoSet) node (asked.blockchain ▸ sound.sets i)
      fun j _ => sound.sets j
  case connected =>
    exact forall_node (fun j s => s.wallet.nodesSender.length = w.connected j) node
      (asked.connected.trans (sound.connected i)) fun j _ => sound.connected j
  case first =>
    exact forall_node (fun j s => start j ≤ s.wallet.accounts.length) node
      ((sound.first i).trans asked.accounts_length) fun j _ => sound.first j
  case arrived =>
    intro c up tx member k early account stored pays
    rw [heard] at member
    have before := sound.arrived c (up_before node asked.running up) tx member k early
    rcases eq_or_ne (w.listener c) i with rfl | other
    · rw [node, Function.update_self] at stored
      obtain ⟨old, found, address, grown⟩ :=
        asked.account_before (Nat.lt_of_lt_of_le early (sound.first _)) stored
      exact grown (before old found (address ▸ pays))
    · rw [node, Function.update_of_ne other] at stored
      exact before account stored pays

theorem made_grows (turn : NetworkTurn ι γ) (i : ι) : n.made i <+: (n.step w turn).made i := by
  rw [step]
  split
  · dsimp only
    rw [Function.update_apply]
    split_ifs with same
    · exact same ▸ List.prefix_append _ _
    · exact List.prefix_rfl
  · exact List.prefix_rfl
  all_goals
    split_ifs
    · split <;> exact List.prefix_rfl
    · exact List.prefix_rfl

theorem made_run_grows (turns : List (NetworkTurn ι γ)) (i : ι) :
    n.made i <+: (execute (step w) n turns).made i := by
  induction turns generalizing n with
  | nil => exact List.prefix_rfl
  | cons turn turns ih => exact (made_grows turn i).trans ih

omit [DecidableEq ι] in
theorem Orderly.of_grows {made made' : ι → List Transaction} (orderly : Orderly made')
    (grows : ∀ i, made i <+: made' i) : Orderly made where
  nodup i := (orderly.nodup i).sublist ((grows i).sublist.map _)
  own i j tx member tx' member' := orderly.own i j tx ((grows i).subset member) tx' ((grows j).subset member')
  fits i tx member := orderly.fits i tx ((grows i).subset member)

theorem Sound.step
    (memory : ∀ key hash signature, WalletCrates.sign key hash = .ok signature → signature.length < 2 ^ 63)
    (sound : n.Sound w start relay) (turn : NetworkTurn ι γ) (orderly : Orderly (n.step w turn).made) :
    ∃ relay', (n.step w turn).Sound w start relay' ∧ Reached relay relay' := by
  have before : Orderly n.made := orderly.of_grows fun i => made_grows turn i
  rcases happens : turn.event with ⟨i, event⟩ | ⟨i, peer⟩ | c | c
  · have asked := @RunningNode.request_turn (n.node i) (turn.of (.request event)) _ event rfl
    rw [Network.step, happens] at orderly ⊢
    exact sound.asked asked (fun tx pays => RunningNode.payment_wellFormed memory (sound.real i) pays) rfl rfl
      orderly rfl rfl rfl
  · have asked := @RunningNode.disconnect_turn (n.node i) (turn.of (.disconnect peer)) _ peer rfl
    rw [Network.step, happens] at orderly ⊢
    refine sound.asked asked (fun tx pays => (Option.some_ne_none tx pays.symm).elim) rfl ?_ orderly rfl rfl rfl
    rw [Option.toList_none, List.append_nil, Function.update_eq_self]
  · exact sound.listenerReads before happens
  · exact sound.callerReads before happens

theorem Sound.run
    (memory : ∀ key hash signature, WalletCrates.sign key hash = .ok signature → signature.length < 2 ^ 63)
    (sound : n.Sound w start relay) (turns : List (NetworkTurn ι γ))
    (orderly : Orderly (execute (Network.step w) n turns).made) :
    ∃ relay', (execute (Network.step w) n turns).Sound w start relay' ∧ Reached relay relay' := by
  induction turns generalizing n relay with
  | nil => exact ⟨relay, sound, fun _ => .refl⟩
  | cons turn turns ih =>
    have first : Orderly (n.step w turn).made := orderly.of_grows fun i => made_run_grows turns i
    obtain ⟨relay', sound, steps⟩ := sound.step memory turn first
    obtain ⟨relay'', sound, more⟩ := ih sound orderly
    exact ⟨relay'', sound, fun c => (steps c).trans (more c)⟩

omit [DecidableEq ι] [DecidableEq γ] in
theorem Fresh.sound (fresh : n.Fresh w) :
    n.Sound w (fun i => (n.node i).wallet.accounts.length) fun c => ⟨[], [], [], [], n.Up w c⟩ := by
  constructor
  case linked =>
    intro c
    constructor
    case made => exact (fresh.made _).symm
    case heard => exact (fresh.heard c).symm
    case up => exact Iff.rfl
    case out =>
      rw [toListener, calls, fresh.written, List.drop_nil]
      exact .nil
    case back =>
      rw [toCaller, replies, fresh.written, List.drop_nil]
      exact .nil
    case fromCaller => exact (fresh.fromCaller c).trans_le (Nat.zero_le _)
    case fromListener => exact (fresh.fromListener c).trans_le (Nat.zero_le _)
  case accounted => exact fun c => .start _
  case known => exact fun i hash member => absurd (fresh.transactionsReceived i ▸ member) List.not_mem_nil
  case held => exact fun i tx member => absurd (fresh.made i ▸ member) List.not_mem_nil
  case pending => exact fun i tx member => absurd (fresh.pendingTransactions i ▸ member) List.not_mem_nil
  case wellFormed => exact fun i tx member => absurd (fresh.made i ▸ member) List.not_mem_nil
  case real => exact fresh.real
  case sets => exact fresh.sets
  case connected => exact fresh.connected
  case first => exact fun i => Nat.le_refl _
  case arrived => exact fun c _ tx member => absurd (fresh.heard c ▸ member) List.not_mem_nil

/-- From nodes that have just been connected, in any run in which no two payments have the same hash: as long as
a connection is up, what its listener has received are the first payments of its caller, each once and in the
order in which they were made, and they are pending in the accounts they pay. Once nothing is under way they are
all of them. -/
theorem payments_relayed
    (memory : ∀ key hash signature, WalletCrates.sign key hash = .ok signature → signature.length < 2 ^ 63)
    (fresh : n.Fresh w) (turns : List (NetworkTurn ι γ)) (orderly : Orderly (execute (step w) n turns).made)
    (c : γ) :
    let n' := execute (step w) n turns
    n'.Up w c → n'.heard c <+: n'.made (w.caller c) ∧
      (∀ tx ∈ n'.heard c, ∀ index < (n.node (w.listener c)).wallet.accounts.length, ∀ account,
        (n'.node (w.listener c)).wallet.accounts[index]? = some account → involves account.address tx.txOut →
          tx ∈ account.pendingTransactions) ∧
      (n'.toListener w c = [] → n'.toCaller w c = [] → n'.heard c = n'.made (w.caller c)) := by
  intro n' up
  obtain ⟨relay, sound, _⟩ := fresh.sound.run memory turns orderly
  have linked : n'.Linked w c (relay c) := sound.linked c
  have accounted := sound.accounted c
  have distinct : ((relay c).made.map Transaction.hash).Nodup := linked.made ▸ orderly.nodup _
  have relayUp := linked.up.mpr up
  have sent := accounted.sent_prefix relayUp distinct
  rw [linked.made, Relay.sent, linked.heard] at sent
  refine ⟨(List.prefix_append _ _).trans sent, sound.arrived c up, fun out back => ?_⟩
  rw [← linked.heard, ← linked.made]
  have nothingOut : (relay c).out = [] := by
    refine List.map_eq_nil_iff.mp (empty_of_onWire (fun message member => ?_) (out ▸ linked.out))
    obtain ⟨_ | _, _, rfl⟩ := List.mem_map.mp member
    · exact (sendable_announce _).name
    · exact show "tx".toUTF8.toList.length ≤ 12 by decide +kernel
  have nothingBack : (relay c).back = [] := by
    refine List.map_eq_nil_iff.mp (empty_of_onWire (fun message member => ?_) (back ▸ linked.back))
    obtain ⟨hash, _, rfl⟩ := List.mem_map.mp member
    exact (sendable_request hash).name
  exact accounted.settled relayUp distinct nothingOut nothingBack

/-- Nothing is relayed a second time: what is pending at a node was paid by the node itself, which holds it once,
or by a caller of the node. -/
theorem pending_paid
    (memory : ∀ key hash signature, WalletCrates.sign key hash = .ok signature → signature.length < 2 ^ 63)
    (fresh : n.Fresh w) (turns : List (NetworkTurn ι γ)) (orderly : Orderly (execute (step w) n turns).made)
    (i : ι) :
    let n' := execute (step w) n turns
    (∀ tx ∈ n'.made i, (n'.node i).pendingTransactions.filter (·.hash = tx.hash) = [tx]) ∧
      ∀ tx ∈ (n'.node i).pendingTransactions,
        tx ∈ n'.made i ∨ ∃ c, w.listener c = i ∧ tx ∈ n'.made (w.caller c) := by
  obtain ⟨_, sound, _⟩ := fresh.sound.run memory turns orderly
  exact ⟨sound.held i, sound.pending i⟩

end Steps

end Network

namespace OneKey

/-- A payer, and its neighbour, which has the account that is paid. -/
def neighbours : Wiring Bool Unit where
  connected i := if i then 1 else 0
  caller _ := true
  callerPeer _ := 0
  listener _ := false
  listenerPeer _ := 0
  outgoing _ := by decide
  incoming _ := by decide
  apart _ := by decide
  single _ _ _ _ := rfl
  callerOwn _ _ _ _ := rfl
  listenerOwn _ _ _ _ := rfl

def neighbour (i : Bool) : RunningNode :=
  if i then ⟨⟨[], ∅, ∅, ∅⟩, wallet p2pkh, [], [], [], true, false⟩
  else ⟨⟨[], ∅, ∅, ∅⟩, ⟨none, [⟨⟨receiver, [], [], []⟩, ""⟩], false, []⟩, [⟨true, []⟩], [], [], true, false⟩

def network : Network Bool Unit := ⟨neighbour, fun _ => 0, fun _ => 0, fun _ => [], fun _ => []⟩

def networkEvents : List (NetworkEvent Bool Unit) :=
  [.request true (.MakeTransaction receiver 5 2), .listenerReads (), .callerReads (), .listenerReads ()]

theorem network_fresh : network.Fresh neighbours where
  connected i := by cases i <;> rfl
  written i peer := by
    cases i <;> rcases peer with _ | _ | peer <;> rfl
  transactionsReceived i := by cases i <;> rfl
  pendingTransactions i := by cases i <;> rfl
  real i account member := by
    cases i
    · obtain rfl := List.mem_singleton.mp member
      exact ⟨by decide, by decide, by decide⟩
    · obtain rfl := List.mem_singleton.mp member
      have one : (holdings (OneKey.account OneKey.p2pkh).utxoSet).length = 1 := rfl
      exact ⟨by decide, by decide, by rw [one]; norm_num⟩
  sets i visit visits := by
    have none : visit = [] := List.eq_nil_iff_forall_not_mem.mpr fun entry member => by
      have stored : (network.node i).blockchain.utxoSet.get entry.1 = some entry.2 := (visits.2 _ _).mp member
      cases i <;> cases stored
    subst none
    exact ⟨by decide, by decide, by decide⟩
  fromCaller _ := rfl
  fromListener _ := rfl
  made _ := rfl
  heard _ := rfl

theorem network_made (made : Bool → List Transaction)
    (same : made = (execute (@Network.step _ _ neighbours crates _ _) network (networkEvents.map fun event =>
      ⟨event, HashMap.visit, HashMap.enumerates_visit⟩)).made) : @Network.Orderly _ crates made := by
  have paid : ∃ tx, made true = [tx] := List.length_eq_one_iff.mp (by rw [same]; decide +kernel)
  have others : made false = [] := List.eq_nil_of_length_eq_zero (by rw [same]; decide +kernel)
  have short : ∀ tx ∈ made true, tx.marshalling.length < 2 ^ 32 := by rw [same]; decide +kernel
  obtain ⟨tx, paid⟩ := paid
  refine @Network.Orderly.mk _ crates _ (fun i => ?_) (fun i j tx' member tx'' member' _ => ?_)
    (fun i tx member => ?_)
  · cases i
    · rw [others]
      exact List.nodup_nil
    · rw [paid]
      exact List.nodup_singleton _
  · cases i <;> cases j
    · rfl
    · exact absurd (others ▸ member) List.not_mem_nil
    · exact absurd (others ▸ member') List.not_mem_nil
    · rfl
  · cases i
    · exact absurd (others ▸ member) List.not_mem_nil
    · exact short tx member

end OneKey

/-- One payment of five satoshis to the neighbour. -/
theorem Network.payments_relayed_neighbours :
    ∃ n', n' = execute (@step _ _ OneKey.neighbours OneKey.crates _ _) OneKey.network
        (OneKey.networkEvents.map fun event => ⟨event, HashMap.visit, HashMap.enumerates_visit⟩) ∧
      (n'.made true).length = 1 ∧ n'.heard () = n'.made true ∧
      ∀ tx ∈ n'.made true, ∀ account, (n'.node false).wallet.accounts[0]? = some account →
        tx ∈ account.pendingTransactions := by
  refine ⟨_, rfl, ?_⟩
  generalize same : execute (@step _ _ OneKey.neighbours OneKey.crates _ _) OneKey.network _ = n'
  have relayed := @payments_relayed _ _ OneKey.neighbours OneKey.crates _ _ _ OneKey.signature_fits
    OneKey.network_fresh _ (OneKey.network_made _ rfl) ()
  rw [same] at relayed
  obtain ⟨_, arrived, settled⟩ := relayed (by rw [← same]; decide +kernel)
  have heard := settled (by rw [← same]; decide +kernel) (by rw [← same]; decide +kernel)
  have pays : ∀ tx ∈ n'.made true, ∀ account, (n'.node false).wallet.accounts[0]? = some account →
      @involves OneKey.crates.toCrates account.address tx.txOut = true := by
    rw [← same]
    decide +kernel
  refine ⟨by rw [← same]; decide +kernel, heard, fun tx member account stored => ?_⟩
  exact arrived tx (heard.symm ▸ member) 0 Nat.zero_lt_one account stored (pays tx member account stored)

/-- The payment is pending at both nodes. -/
theorem Network.pending_paid_neighbours :
    ∃ n', n' = execute (@step _ _ OneKey.neighbours OneKey.crates _ _) OneKey.network
        (OneKey.networkEvents.map fun event => ⟨event, HashMap.visit, HashMap.enumerates_visit⟩) ∧
      (n'.node true).pendingTransactions.length = 1 ∧ (n'.node false).pendingTransactions.length = 1 ∧
      ∀ tx ∈ (n'.node false).pendingTransactions, tx ∈ n'.made true := by
  refine ⟨_, rfl, ?_⟩
  generalize same : execute (@step _ _ OneKey.neighbours OneKey.crates _ _) OneKey.network _ = n'
  have paid := (@pending_paid _ _ OneKey.neighbours OneKey.crates _ _ _ OneKey.signature_fits
    OneKey.network_fresh _ (OneKey.network_made _ rfl) false).2
  rw [same] at paid
  refine ⟨by rw [← same]; decide +kernel, by rw [← same]; decide +kernel, fun tx member => ?_⟩
  have idle : n'.made false = [] := List.eq_nil_of_length_eq_zero (by rw [← same]; decide +kernel)
  rcases paid tx member with own | ⟨_, _, paid⟩
  · exact absurd (idle ▸ own) List.not_mem_nil
  · exact paid

end BitcoinNode
