import BitcoinNode.PeerConflicts
import BitcoinNode.Replay

/-! Two peers that announce new blocks at the same time. Their threads end as if one had run after
the other, if no step of the one gets in front of a step of the other that it conflicts with. -/
namespace BitcoinNode

/-- The check for known headers, and the push that it looks out for. -/
def Access.OfHeaders : Access → Prop
  | .headerIsNotIncluded _ | .pushHeader _ => True
  | _ => False

/-- What a thread does after its header is in: nothing to the headers. -/
def Access.Settles (b : Block) : Access → Prop
  | .loadUtxos tx => tx ∈ b.txn
  | access => ¬access.OfHeaders

namespace PeerThread

variable {P : Access → Prop} {next : PeerThread}

theorem all_perform {access : Access} {rest : Bool → PeerThread} (here : P access)
    (others : ∀ answer, (rest answer).All P) : (perform access rest).All P := by
  refine ⟨here, fun answer => ?_⟩
  cases answer with
  | error => trivial
  | ok answer => exact others answer

theorem all_remove_utxos (asks : ∀ txId, P (.containsKey txId))
    (removes : ∀ txId index, P (.removeUtxo txId index)) (rest : next.All P) (txIn : List TxIn) :
    (removeUtxos txIn next).All P := by
  induction txIn with
  | nil => exact rest
  | cons txin txIn ih =>
    refine all_perform (asks _) fun held => ?_
    cases held with
    | false => exact ih
    | true => exact all_perform (removes _ _) fun _ => ih

theorem all_give_me_utxos (asks : ∀ txId, P (.containsKey txId))
    (removes : ∀ txId index, P (.removeUtxo txId index)) {txn : List Transaction}
    (loads : ∀ tx ∈ txn, P (.loadUtxos tx)) (rest : next.All P) : (giveMeUtxos txn next).All P := by
  induction txn with
  | nil => exact rest
  | cons tx txn ih =>
    have others := ih fun tx member => loads tx (by simp [member])
    have load : (perform (.loadUtxos tx) fun _ => giveMeUtxos txn next).All P :=
      all_perform (loads tx (by simp)) fun _ => others
    rw [giveMeUtxos]
    rcases tx.isCoinbaseTransaction with e | _ | _
    · trivial
    · exact all_remove_utxos asks removes load tx.txIn
    · exact load

theorem all_contains_pending_tx {txn : List Transaction} (looks : ∀ tx ∈ txn, P (.containsPendingTx tx))
    (rest : next.All P) : (containsPendingTx txn next).All P := by
  induction txn with
  | nil => exact rest
  | cons tx txn ih =>
    exact all_perform (looks tx (by simp)) fun _ => ih fun tx member => looks tx (by simp [member])

theorem all_settle_new_block (b : Block) : (settleNewBlock b).All (Access.Settles b) := by
  have included : (perform (.includeNewBlock b) fun _ => .done (.ok ())).All (Access.Settles b) :=
    all_perform id fun _ => trivial
  have pending : (containsPendingTx b.txn (perform (.includeNewBlock b) fun _ => .done (.ok ()))).All
      (Access.Settles b) := all_contains_pending_tx (fun _ _ => id) included
  exact all_give_me_utxos (fun _ => id) (fun _ _ => id) (fun _ member => member)
    (all_perform id fun _ => pending)

/-- Once its header is in, a thread neither checks nor pushes again. -/
def PushesOnce : PeerThread → Prop
  | .done _ => True
  | .call access next =>
    ((∃ header, access = .pushHeader header) → ∀ answer, (next answer).All (¬·.OfHeaders)) ∧
      ∀ answer, PushesOnce (next answer)

theorem PushesOnce.of_all {t : PeerThread} (none : t.All (¬·.OfHeaders)) : t.PushesOnce := by
  induction t with
  | done => trivial
  | call access next ih => exact ⟨fun _ => none.2, fun answer => ih answer (none.2 answer)⟩

theorem PushesOnce.perform {access : Access} {rest : Bool → PeerThread}
    (pushed : (∃ header, access = .pushHeader header) → ∀ answer, (rest answer).All (¬·.OfHeaders))
    (others : ∀ answer, (rest answer).PushesOnce) : (PeerThread.perform access rest).PushesOnce := by
  refine ⟨fun push answer => ?_, fun answer => ?_⟩
  · cases answer with
    | error => trivial
    | ok answer => exact pushed push answer
  · cases answer with
    | error => trivial
    | ok answer => exact others answer

theorem pushesOnce_handle_block (b : Block) : (handleBlock b).PushesOnce := by
  have settled : (settleNewBlock b).All (¬·.OfHeaders) := (all_settle_new_block b).imp fun access settles => by
    cases access with
    | loadUtxos tx => exact id
    | _ => exact settles
  refine .perform (fun ⟨_, check⟩ => nomatch check) fun unknown => ?_
  cases unknown with
  | false => trivial
  | true =>
    exact .perform (fun _ _ => all_perform id fun _ => settled) fun _ =>
      .perform (fun ⟨_, height⟩ => nomatch height) fun _ => .of_all settled

theorem all_handle_block {b : Block} (checks : P (.headerIsNotIncluded b.blockHeader))
    (pushes : P (.pushHeader b.blockHeader)) (heights : P (.insertHeight b.blockHeader))
    (settles : ∀ access, access.Settles b → P access) : (handleBlock b).All P := by
  refine all_perform checks fun unknown => ?_
  cases unknown with
  | false => trivial
  | true => exact all_perform pushes fun _ => all_perform heights fun _ => (all_settle_new_block b).imp settles

end PeerThread

theorem last_10_headers_append {headers : List BlockHeader} {header header' : BlockHeader}
    (unknown : header ∉ last10Headers headers) (other : header' ≠ header) :
    header ∉ last10Headers (headers ++ [header']) := by
  intro member
  rw [last10Headers, List.drop_append_of_le_length (by simp), List.mem_append,
    List.mem_singleton] at member
  rcases member with inside | rfl
  · apply unknown
    rw [last10Headers]
    rw [List.length_append, List.length_singleton] at inside
    exact List.drop_subset_drop_left headers (by omega) inside
  · exact other rfl

theorem mem_last_10_headers (headers : List BlockHeader) (header : BlockHeader) :
    header ∈ last10Headers (headers ++ [header]) := by
  rw [last10Headers, List.drop_append_of_le_length (by simp)]
  exact List.mem_append_right _ List.mem_cons_self

section TwoPeers

variable [Crates]

theorem Access.seen_headers {fails : UtxoSet → Prop} {access : Access}
    (other : ¬∃ header, access = .pushHeader header) (v : Sight) :
    (access.seen fails v).2.chain.headers = v.chain.headers := by
  cases access with
  | pushHeader header => exact absurd ⟨header, rfl⟩ other
  | updateAccountsUtxoSet | containsPendingTx =>
    simp only [seen]
    split_ifs <;> rfl
  | _ => rfl

abbrev PeerPair (σ : Type) := Pair Access (Outcome NodeCustomErrors Bool) (Outcome NodeCustomErrors Unit) σ

/-- Until the leader has pushed its header, a header that the other thread checks is unknown. -/
structure Guarded (leader : Bool) (p : PeerPair Sight) : Prop where
  once : ∀ side, PeerThread.PushesOnce (p.threads side)
  unknown : ((p.threads leader).All fun access => ¬∃ header, access = .pushHeader header) ∨
    (p.threads !leader).All fun access => ∀ header, access = .headerIsNotIncluded header →
      header ∉ last10Headers p.state.chain.headers

theorem Guarded.step {leader : Bool} {fails : UtxoSet → Prop} {p : PeerPair Sight} (side : Bool)
    (guarded : Guarded leader p) : Guarded leader (p.step (Access.seen fails) side) := by
  rcases asks : p.threads side with result | ⟨access, next⟩
  · rwa [Pair.step_done asks]
  have own := guarded.once side
  rw [asks] at own
  refine ⟨fun other => ?_, ?_⟩
  · rw [Pair.step_call asks]
    by_cases same : other = side
    · subst same
      simpa only [Function.update_self] using own.2 _
    · simpa only [Function.update_of_ne same] using guarded.once other
  by_cases pushes : ∃ header, access = .pushHeader header
  · have silent := own.1 pushes (access.seen fails p.state).1
    rw [Pair.step_call asks]
    by_cases led : side = leader
    · subst led
      refine .inl ?_
      simp only [Function.update_self]
      exact silent.imp fun later apart push => apart (by obtain ⟨header, rfl⟩ := push; trivial)
    · obtain rfl : side = !leader := by cases side <;> cases leader <;> simp_all
      refine .inr ?_
      simp only [Function.update_self]
      exact silent.imp fun later apart header check => absurd (by subst check; trivial) apart
  · refine guarded.unknown.imp Pair.all_step fun unknown => ?_
    have kept : (p.step (Access.seen fails) side).state.chain.headers = p.state.chain.headers := by
      rw [Pair.step_call asks]
      exact Access.seen_headers pushes p.state
    rw [kept]
    exact Pair.all_step unknown

/-- A thread that is not the leader makes no step that conflicts with one the leader may still make. -/
def Undisturbed (panics : Prop) (leader : Bool) (p : PeerPair σ) (side : Bool) : Prop :=
  side ≠ leader → ∀ access next, p.threads side = .call access next →
    (p.threads leader).All fun later => ¬later.Conflicts panics access

theorem Guarded.yields {leader side : Bool} {fails : UtxoSet → Prop} {panics : Prop}
    {p : PeerPair Sight} (guarded : Guarded leader p) (quiet : ¬panics → ∀ utxoSet, ¬fails utxoSet)
    (undisturbed : Undisturbed panics leader p side) : p.Yields (Access.seen fails) leader side := by
  intro other access next asks
  have peaceful := undisturbed other access next asks
  by_cases checks : ∃ header, access = .headerIsNotIncluded header
  · obtain ⟨header, rfl⟩ := checks
    rcases guarded.unknown with pushed | unknown
    · exact .of_commute ((pushed.and peaceful).imp fun later ⟨noPush, apart⟩ =>
        Access.commute_seen quiet apart fun header' push => absurd ⟨header', push⟩ noPush) p.state
    · -- the leader may still push, but not this header
      obtain rfl : side = !leader := by cases side <;> cases leader <;> simp_all
      rw [asks] at unknown
      have before := unknown.1 header rfl
      have keeps : (p.threads leader).All fun later => ∀ v : Sight, header ∉ last10Headers v.chain.headers →
          header ∉ last10Headers (later.seen fails v).2.chain.headers := by
        refine peaceful.imp fun later apart v here => ?_
        by_cases pushes : ∃ header', later = .pushHeader header'
        · obtain ⟨header', rfl⟩ := pushes
          exact last_10_headers_append here fun same => apart (.inl same)
        · rwa [Access.seen_headers pushes v]
      have after := Thread.run_keeps keeps before
      refine ⟨rfl, congrArg Except.ok ?_⟩
      exact (header_is_not_included_iff.mpr after).trans (header_is_not_included_iff.mpr before).symm
  · exact .of_commute (peaceful.imp fun later apart =>
      Access.commute_seen quiet apart fun _ _ header check => checks ⟨header, check⟩) p.state

def announcedBlocks (payloads : Bool → List UInt8) (s : NodeDataPointers) : PeerPair NodeDataPointers :=
  ⟨fun side => PeerThread.handleBlockMessage (payloads side), s⟩

/-- There are accounts, and a script in the utxo set or in one of the blocks that they panic on. -/
def VisitsPanic (s : NodeDataPointers) (blocks : Bool → Block) : Prop :=
  s.accounts ≠ [] ∧ ¬(s.blockchain.utxoSet.Readable ∧
    ∀ side, ∀ tx ∈ (blocks side).txn, ∀ out ∈ tx.txOut, out.Readable)

/-- From a state in which two blocks are new, every schedule in which one thread is undisturbed by
the other leaves the chain of the two handlers one after the other. -/
theorem two_peers_serial {order order' : UtxoSet → List (Hash × UtxoTuple)}
    (visits : ∀ utxoSet, HashMap.Enumerates utxoSet (order utxoSet))
    (visits' : ∀ utxoSet, HashMap.Enumerates utxoSet (order' utxoSet)) {s : NodeDataPointers}
    {payloads : Bool → List UInt8} {blocks : Bool → Block}
    (new : ∀ side, NewBlock s.blockchain.headers (payloads side) (blocks side)) {leader : Bool}
    {schedule : List Bool}
    (undisturbed : EachCall (Pair.step (Access.act order)) (Undisturbed (VisitsPanic s blocks) leader)
      (announcedBlocks payloads s) schedule)
    (finished : (execute (Pair.step (Access.act order)) (announcedBlocks payloads s) schedule).Finished) :
    (execute (Pair.step (Access.act order)) (announcedBlocks payloads s) schedule).state.blockchain =
      (execute BlockCall.step s [⟨payloads leader, order'⟩, ⟨payloads !leader, order'⟩]).blockchain := by
  let fails : UtxoSet → Prop := fun utxoSet => VisitsPanic s blocks ∧ ¬utxoSet.Readable
  have start (side : Bool) : (announcedBlocks payloads s).threads side = PeerThread.handleBlock (blocks side) :=
    PeerThread.handle_block_message_accepted (new side).1
  have some : VisitsPanic s blocks → ¬s.accounts = [] := And.left
  have sighted : Sighted (VisitsPanic s blocks) (s.accounts = []) s := by
    refine ⟨Iff.rfl, fun quiet => or_iff_not_imp_left.mpr fun accounts => ?_⟩
    exact (not_not.mp fun unreadable => quiet ⟨accounts, unreadable⟩).1
  have safe (side : Bool) : ((announcedBlocks payloads s).threads side).All fun access =>
      ¬VisitsPanic s blocks → s.accounts = [] ∨ access.Readable := by
    rw [start]
    refine PeerThread.all_handle_block (fun _ => .inr trivial) (fun _ => .inr trivial)
      (fun _ => .inr trivial) fun access settles quiet => or_iff_not_imp_left.mpr fun accounts => ?_
    have readable := (not_not.mp fun unreadable => quiet ⟨accounts, unreadable⟩).2
    cases access with
    | loadUtxos tx => exact readable side tx settles
    | _ => trivial
  have seen (schedule : List Bool) := Pair.execute_project (Access.sight visits some) safe sighted schedule
  have yields : EachCall (Pair.step (Access.seen fails)) (Pair.Yields (Access.seen fails) leader)
      ((announcedBlocks payloads s).project NodeDataPointers.sight) schedule := by
    have guarded : Guarded leader ((announcedBlocks payloads s).project NodeDataPointers.sight) := by
      refine ⟨fun side => ?_, .inr ?_⟩
      · exact start side ▸ PeerThread.pushesOnce_handle_block (blocks side)
      · have unknown := (new !leader).2
        change ((announcedBlocks payloads s).threads !leader).All _
        rw [start]
        refine PeerThread.all_handle_block (fun header check => ?_) (fun _ => nofun) (fun _ => nofun) ?_
        · obtain rfl := Access.headerIsNotIncluded.inj check
          exact unknown
        · rintro access settles header rfl
          exact absurd trivial settles
    intro before side after split
    have here := Throughout.of_step (fun p side => @Guarded.step _ leader fails p side) guarded schedule before
      (split ▸ List.prefix_append _ _)
    refine here.yields (fun quiet utxoSet panics => quiet panics.1) ?_
    rw [← seen before]
    exact undisturbed before side after split
  have ended := Pair.serial yields (by rw [← seen schedule]; exact finished)
  rw [← seen schedule] at ended
  have first := Pair.run_project (Access.sight visits' some) (safe leader) sighted
  have second := Pair.run_project (Access.sight visits' some) (safe !leader) first.2.2
  have state : ∀ s payload, ((PeerThread.handleBlockMessage payload).run (Access.act order') s).2 =
      BlockCall.step s ⟨payload, order'⟩ := fun s payload =>
    congrArg Prod.snd (PeerThread.run_handle_block_message payload s)
  have same := second.2.1
  rw [first.2.1] at same
  have sights := ended.trans same.symm
  rw [execute_cons, execute_cons, execute_nil, ← state, ← state]
  exact congrArg Sight.chain sights

section OneBlock

variable {order : UtxoSet → List (Hash × UtxoTuple)} {s : NodeDataPointers} {payload : List UInt8} {b : Block}

theorem step_check {p : PeerPair NodeDataPointers} {side : Bool}
    (here : p.threads side = PeerThread.handleBlock b) :
    p.step (Access.act order) side = ⟨Function.update p.threads side
      (if headerIsNotIncluded b.blockHeader p.state.blockchain.headers then
        PeerThread.applyNewBlock b else .done (.ok ())), p.state⟩ := Pair.step_call here

theorem step_push {p : PeerPair NodeDataPointers} {side : Bool}
    (here : p.threads side = PeerThread.applyNewBlock b) :
    p.step (Access.act order) side = ⟨Function.update p.threads side
      (PeerThread.perform (.insertHeight b.blockHeader) fun _ => PeerThread.settleNewBlock b),
      p.state.onBlockchain fun chain => { chain with headers := chain.headers ++ [b.blockHeader] }⟩ :=
  Pair.step_call here

theorem run_apply_headers (b : Block) (s : NodeDataPointers) :
    ((PeerThread.applyNewBlock b).run (Access.act order) s).2.blockchain.headers =
      s.blockchain.headers ++ [b.blockHeader] := by
  rw [PeerThread.run_apply_new_block]
  exact congrArg Prod.fst (apply_new_block_index b order s)

theorem both_peers_push (new : NewBlock s.blockchain.headers payload b) :
    ∃ schedule,
      (execute (Pair.step (Access.act order)) (announcedBlocks (fun _ => payload) s) schedule).Finished ∧
      (execute (Pair.step (Access.act order)) (announcedBlocks (fun _ => payload) s)
        schedule).state.blockchain.headers = s.blockchain.headers ++ [b.blockHeader] ++ [b.blockHeader] := by
  have start : announcedBlocks (fun _ => payload) s = ⟨fun _ => PeerThread.handleBlock b, s⟩ :=
    congrArg (Pair.mk · s) (funext fun _ => PeerThread.handle_block_message_accepted new.1)
  have unknown := header_is_not_included_iff.mpr new.2
  have checked : execute (Pair.step (Access.act order)) ⟨fun _ => PeerThread.handleBlock b, s⟩ [false, true] =
      ⟨fun _ => PeerThread.applyNewBlock b, s⟩ := by
    rw [execute_cons, execute_cons, execute_nil, step_check (b := b) rfl, step_check (b := b) rfl]
    simp only [unknown, if_true]
    congr 1
    funext side
    cases side <;> rfl
  let first := (PeerThread.applyNewBlock b).run (Access.act order) s
  let second := (PeerThread.applyNewBlock b).run (Access.act order) first.2
  have one : execute (Pair.step (Access.act order)) ⟨fun _ => PeerThread.applyNewBlock b, s⟩
      (List.replicate ((PeerThread.applyNewBlock b).steps (Access.act order) s) false) =
      ⟨Function.update (fun _ => PeerThread.applyNewBlock b) false (.done first.1), first.2⟩ :=
    Pair.execute_alone rfl
  have other : execute (Pair.step (Access.act order))
      ⟨Function.update (fun _ => PeerThread.applyNewBlock b) false (.done first.1), first.2⟩
      (List.replicate ((PeerThread.applyNewBlock b).steps (Access.act order) first.2) true) =
      ⟨Function.update (Function.update (fun _ => PeerThread.applyNewBlock b) false (.done first.1)) true
        (.done second.1), second.2⟩ := Pair.execute_alone rfl
  refine ⟨[false, true] ++ (List.replicate ((PeerThread.applyNewBlock b).steps (Access.act order) s) false ++
    List.replicate ((PeerThread.applyNewBlock b).steps (Access.act order) first.2) true), ?_⟩
  rw [start, execute_append, checked, execute_append, one, other]
  refine ⟨fun side => ?_, ?_⟩
  · cases side
    · exact ⟨first.1, rfl⟩
    · exact ⟨second.1, rfl⟩
  · exact (run_apply_headers b first.2).trans (congrArg (· ++ [b.blockHeader]) (run_apply_headers b s))

theorem BlockCall.same_block {order' : UtxoSet → List (Hash × UtxoTuple)}
    (new : NewBlock s.blockchain.headers payload b) :
    (execute BlockCall.step s [⟨payload, order⟩, ⟨payload, order'⟩]).blockchain.headers =
      s.blockchain.headers ++ [b.blockHeader] := by
  have stored : (BlockCall.step s ⟨payload, order⟩).blockchain.headers = _ := BlockCall.step_new new
  have other : ∀ b', ¬NewBlock (BlockCall.step s ⟨payload, order⟩).blockchain.headers payload b' := by
    intro b' again
    obtain rfl : b = b' := Except.ok.inj (new.1.1.symm.trans again.1.1)
    rw [stored] at again
    exact again.2 (mem_last_10_headers _ _)
  rw [execute_cons, execute_cons, execute_nil, ← stored]
  exact congrArg (·.blockchain.headers) (handle_block_message_other other order')

theorem late_peer (new : NewBlock s.blockchain.headers payload b) (panics : Prop) :
    ∃ schedule, EachCall (Pair.step (Access.act order)) (Undisturbed panics false)
        (announcedBlocks (fun _ => payload) s) schedule ∧
      (execute (Pair.step (Access.act order)) (announcedBlocks (fun _ => payload) s) schedule).Finished := by
  have start : announcedBlocks (fun _ => payload) s = ⟨fun _ => PeerThread.handleBlock b, s⟩ :=
    congrArg (Pair.mk · s) (funext fun _ => PeerThread.handle_block_message_accepted new.1)
  have unknown := header_is_not_included_iff.mpr new.2
  have known : headerIsNotIncluded b.blockHeader (s.blockchain.headers ++ [b.blockHeader]) = false :=
    Bool.eq_false_iff.mpr fun unknown => header_is_not_included_iff.mp unknown (mem_last_10_headers _ _)
  let rest : PeerThread := .perform (.insertHeight b.blockHeader) fun _ => .settleNewBlock b
  let s' := s.onBlockchain fun chain => { chain with headers := chain.headers ++ [b.blockHeader] }
  have settled : rest.All fun later => ¬later.Conflicts panics (.headerIsNotIncluded b.blockHeader) := by
    refine PeerThread.all_perform (by simp [Access.Conflicts, Access.Clash, Access.OfAccounts]) fun _ =>
      (PeerThread.all_settle_new_block b).imp fun access settles => ?_
    rintro (clash | ⟨_, ⟨_, accounts⟩ | ⟨check, _⟩⟩)
    · cases access with
      | pushHeader => exact settles trivial
      | _ => exact clash
    · exact accounts
    · cases check
  let waiting : Bool → PeerThread := Function.update (fun _ => PeerThread.handleBlock b) false rest
  let ended : Bool → PeerThread := Function.update waiting true (.done (.ok ()))
  have check : Pair.step (Access.act order) ⟨fun _ => PeerThread.handleBlock b, s⟩ false =
      ⟨Function.update (fun _ => PeerThread.handleBlock b) false (PeerThread.applyNewBlock b), s⟩ := by
    rw [step_check (b := b) rfl, if_pos unknown]
  have push : Pair.step (Access.act order)
      ⟨Function.update (fun _ => PeerThread.handleBlock b) false (PeerThread.applyNewBlock b), s⟩ false =
      ⟨waiting, s'⟩ :=
    (step_push (b := b) rfl).trans (congrArg (Pair.mk · s') (Function.update_idem ..))
  have late : Pair.step (Access.act order) ⟨waiting, s'⟩ true = ⟨ended, s'⟩ := by
    rw [step_check (b := b) rfl]
    exact congrArg (fun t => Pair.mk (Function.update waiting true t) s') (if_neg (Bool.eq_false_iff.mp known))
  have alone : execute (Pair.step (Access.act order)) ⟨ended, s'⟩
      (List.replicate (rest.steps (Access.act order) s') false) =
      ⟨Function.update ended false (.done (rest.run (Access.act order) s').1),
        (rest.run (Access.act order) s').2⟩ := Pair.execute_alone rfl
  have led (p : PeerPair NodeDataPointers) : Undisturbed panics false p false := fun other => absurd rfl other
  refine ⟨false :: false :: true :: List.replicate (rest.steps (Access.act order) s') false, ?_, ?_⟩
  · rw [start]
    refine eachCall_cons.mpr ⟨led _, ?_⟩
    rw [check]
    refine eachCall_cons.mpr ⟨led _, ?_⟩
    rw [push]
    refine eachCall_cons.mpr ⟨fun _ access next asks => ?_, fun before side after split => ?_⟩
    · obtain rfl := (Thread.call.inj asks).1
      exact settled
    · obtain rfl := List.eq_of_mem_replicate (split ▸ List.mem_append_right before List.mem_cons_self)
      exact led _
  · rw [start, execute_cons, check, execute_cons, push, execute_cons, late, alone]
    intro side
    cases side
    · exact ⟨_, rfl⟩
    · exact ⟨_, rfl⟩

end OneBlock

end TwoPeers

theorem Block.minted_new [Crates] (work : (Block.minted 1).blockHeader.validate = .ok true)
    (other : (Block.minted 1).blockHeader ≠ genesisBlockHeader) :
    NewBlock Blockchain.initial.headers (Block.minted 1).marshalling (Block.minted 1) :=
  .first (Block.minted_wellFormed 1) (Block.minted_accepted work) other

/-- Both peers announce the first block, both checks come before the pushes: in no order do the
handlers, one after the other, store its header twice. -/
theorem two_peers_one_block :
    let _ := Crates.standard
    let s : NodeDataPointers := ⟨.initial, [], false⟩
    let payload := (Block.minted 1).marshalling
    let run := execute (Pair.step (Access.act HashMap.visit)) (announcedBlocks (fun _ => payload) s)
    NewBlock s.blockchain.headers payload (Block.minted 1) ∧
      ∃ schedule, (run schedule).Finished ∧ (run schedule).state.blockchain.headers ≠
        (execute BlockCall.step s [⟨payload, HashMap.visit⟩, ⟨payload, HashMap.visit⟩]).blockchain.headers := by
  intro _ s payload run
  have new : NewBlock s.blockchain.headers payload (Block.minted 1) :=
    Block.minted_new (by decide +kernel) (by decide +kernel)
  obtain ⟨schedule, finished, twice⟩ := both_peers_push new
  refine ⟨new, schedule, finished, ?_⟩
  rw [twice, BlockCall.same_block new]
  simp

/-- The second peer checks after the first one pushed. -/
theorem two_peers_serial_late :
    let _ := Crates.standard
    let s : NodeDataPointers := ⟨.initial, [], false⟩
    let payload := (Block.minted 1).marshalling
    let run := execute (Pair.step (Access.act HashMap.visit)) (announcedBlocks (fun _ => payload) s)
    ∃ schedule, (run schedule).state.blockchain =
      (execute BlockCall.step s [⟨payload, HashMap.visit⟩, ⟨payload, HashMap.visit⟩]).blockchain := by
  intro _ s payload run
  have new : NewBlock s.blockchain.headers payload (Block.minted 1) :=
    Block.minted_new (by decide +kernel) (by decide +kernel)
  obtain ⟨schedule, undisturbed, finished⟩ := late_peer new (VisitsPanic s fun _ => Block.minted 1)
  exact ⟨schedule, two_peers_serial HashMap.enumerates_visit HashMap.enumerates_visit (fun _ => new)
    undisturbed finished⟩

end BitcoinNode
