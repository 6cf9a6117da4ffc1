import BitcoinNode.Handlers

/-! Block messages that arrive again. The check for known headers looks at the last ten, so a
block further back is applied a second time. -/
namespace BitcoinNode

structure BlockCall where
  payload : List UInt8
  order : UtxoSet → List (Hash × UtxoTuple)

section Replay

variable [Crates]

def BlockCall.step (s : NodeDataPointers) (call : BlockCall) : NodeDataPointers :=
  ((handleBlockMessage call.payload call.order).run s).2

/-- A block whose header is stored changes nothing. -/
def BlockCall.ReplaySafe (s : NodeDataPointers) (call : BlockCall) : Prop :=
  ∀ b, BlockMessage.unmarshalling call.payload = .ok b → b.blockHeader ∈ s.blockchain.headers →
    BlockCall.step s call = s

/-- An accepted block whose header is stored has it among the last ten. -/
def BlockCall.InWindow (s : NodeDataPointers) (call : BlockCall) : Prop :=
  ∀ b, AcceptedBlock call.payload b → b.blockHeader ∈ s.blockchain.headers →
    b.blockHeader ∈ last10Headers s.blockchain.headers

theorem BlockCall.step_new {s : NodeDataPointers} {call : BlockCall} {b : Block}
    (new : NewBlock s.blockchain.headers call.payload b) :
    (BlockCall.step s call).blockchain.headers = s.blockchain.headers ++ [b.blockHeader] := by
  rw [BlockCall.step, handle_block_message_new new]
  exact congrArg Prod.fst (apply_new_block_index b call.order s)

theorem BlockCall.step_ne {s : NodeDataPointers} {call : BlockCall} {b : Block}
    (new : NewBlock s.blockchain.headers call.payload b) : BlockCall.step s call ≠ s := by
  intro same
  have appended := BlockCall.step_new new
  rw [same] at appended
  simpa using congrArg List.length appended

/-- One call: safe exactly when the header is in the window, whatever the state. -/
theorem BlockCall.replaySafe_iff (s : NodeDataPointers) (call : BlockCall) :
    BlockCall.ReplaySafe s call ↔ BlockCall.InWindow s call := by
  constructor
  · intro safe b accepted stored
    by_contra outside
    exact BlockCall.step_ne ⟨accepted, outside⟩ (safe b accepted.1 stored)
  · intro window b decoded stored
    apply handle_block_message_other _ call.order
    intro b' new
    obtain rfl : b = b' := Except.ok.inj (decoded.symm.trans new.1.1)
    exact new.2 (window b new.1 stored)

theorem BlockCall.nodup_iff (s : NodeDataPointers) (call : BlockCall)
    (nodup : s.blockchain.headers.Nodup) :
    (BlockCall.step s call).blockchain.headers.Nodup ↔ BlockCall.InWindow s call := by
  by_cases new : ∃ b, NewBlock s.blockchain.headers call.payload b
  · obtain ⟨b, new⟩ := new
    have concat : (s.blockchain.headers ++ [b.blockHeader]).Nodup ↔
        b.blockHeader ∉ s.blockchain.headers := by
      rw [List.nodup_append_comm]
      exact List.nodup_cons.trans (and_iff_left nodup)
    rw [BlockCall.step_new new, concat]
    constructor
    · intro fresh b' accepted stored
      obtain rfl : b = b' := Except.ok.inj (new.1.1.symm.trans accepted.1)
      exact absurd stored fresh
    · exact fun window stored => new.2 (window b new.1 stored)
  · have other : ∀ b, ¬NewBlock s.blockchain.headers call.payload b := fun b new' => new ⟨b, new'⟩
    rw [BlockCall.step, handle_block_message_other other]
    refine iff_of_true nodup fun b accepted stored => ?_
    by_contra outside
    exact other b ⟨accepted, outside⟩

/-- From a chain without repeated headers, no header is ever stored twice and stored blocks change
nothing, exactly when every stored block that arrives again is among the last ten. -/
theorem replay_run {s : NodeDataPointers} (nodup : s.blockchain.headers.Nodup)
    (calls : List BlockCall) :
    (Throughout BlockCall.step (·.blockchain.headers.Nodup) s calls ∧
        EachCall BlockCall.step BlockCall.ReplaySafe s calls) ↔
      EachCall BlockCall.step BlockCall.InWindow s calls := by
  rw [throughout_iff BlockCall.nodup_iff, and_iff_right nodup, and_iff_left_iff_imp]
  exact fun window before call after split =>
    (BlockCall.replaySafe_iff _ call).mpr (window before call after split)

def BlockCall.minted (tag : UInt8) : BlockCall := ⟨(Block.minted tag).marshalling, fun _ => []⟩

theorem BlockCall.minted_new {s : NodeDataPointers} {tag : UInt8}
    (work : (Block.minted tag).blockHeader.validate = .ok true)
    (outside : (Block.minted tag).blockHeader ∉ last10Headers s.blockchain.headers) :
    NewBlock s.blockchain.headers (BlockCall.minted tag).payload (Block.minted tag) :=
  .of_wellFormed (Block.minted_wellFormed tag) (Block.minted_accepted work) outside

theorem BlockCall.execute_minted {tags : List UInt8} {s : NodeDataPointers}
    (works : ∀ tag ∈ tags, (Block.minted tag).blockHeader.validate = .ok true)
    (fresh : (s.blockchain.headers ++ tags.map fun tag => (Block.minted tag).blockHeader).Nodup) :
    (execute BlockCall.step s (tags.map BlockCall.minted)).blockchain.headers =
      s.blockchain.headers ++ tags.map fun tag => (Block.minted tag).blockHeader := by
  induction tags generalizing s with
  | nil => simp
  | cons tag rest ih =>
    have outside : (Block.minted tag).blockHeader ∉ last10Headers s.blockchain.headers := fun member =>
      (List.nodup_append.mp fresh).2.2 _ (List.mem_of_mem_drop member) _ List.mem_cons_self rfl
    have stored := BlockCall.step_new (BlockCall.minted_new (works tag (by simp)) outside)
    have split : s.blockchain.headers ++ (tag :: rest).map (fun tag => (Block.minted tag).blockHeader) =
        (BlockCall.step s (.minted tag)).blockchain.headers ++
          rest.map fun tag => (Block.minted tag).blockHeader := by
      simp [stored]
    rw [split] at fresh ⊢
    exact ih (fun tag' member => works tag' (by simp [member])) fresh

theorem BlockCall.minted_again {tags : List UInt8} {s : NodeDataPointers} {tag : UInt8}
    (works : ∀ tag ∈ tags, (Block.minted tag).blockHeader.validate = .ok true)
    (fresh : (s.blockchain.headers ++ tags.map fun tag => (Block.minted tag).blockHeader).Nodup)
    (listed : tag ∈ tags) (outside : (Block.minted tag).blockHeader ∉
      last10Headers (s.blockchain.headers ++ tags.map fun tag => (Block.minted tag).blockHeader)) :
    let after := execute BlockCall.step s (tags.map BlockCall.minted)
    BlockMessage.unmarshalling (BlockCall.minted tag).payload = .ok (Block.minted tag) ∧
      after.blockchain.headers.Nodup ∧ (Block.minted tag).blockHeader ∈ after.blockchain.headers ∧
      BlockCall.step after (.minted tag) ≠ after ∧
      (BlockCall.step after (.minted tag)).blockchain.headers.count (Block.minted tag).blockHeader = 2 := by
  intro after
  have headers := BlockCall.execute_minted works fresh
  rw [← headers] at fresh outside
  have stored : (Block.minted tag).blockHeader ∈ after.blockchain.headers := by
    rw [headers]
    exact List.mem_append_right _ (List.mem_map_of_mem listed)
  have new := BlockCall.minted_new (works tag listed) outside
  refine ⟨new.1.1, fresh, stored, BlockCall.step_ne new, ?_⟩
  rw [BlockCall.step_new new, List.count_append, List.count_eq_one_of_mem fresh stored,
    List.count_singleton_self]

end Replay

/-- A block is handled, ten more are stored on it, and it arrives again: its header is stored twice. -/
theorem replay_buried :
    let _ := Crates.standard
    let s := execute BlockCall.step ⟨.initial, [], false⟩
      ([1, 2, 3, 4, 5, 6, 7, 8, 9, 10, 11].map BlockCall.minted)
    let call := BlockCall.minted 1
    BlockMessage.unmarshalling call.payload = .ok (Block.minted 1) ∧
      s.blockchain.headers.Nodup ∧ (Block.minted 1).blockHeader ∈ s.blockchain.headers ∧
      BlockCall.step s call ≠ s ∧
      (BlockCall.step s call).blockchain.headers.count (Block.minted 1).blockHeader = 2 := by
  intro _
  exact BlockCall.minted_again (by decide +kernel) (by decide +kernel) (by decide) (by decide +kernel)

/-- A block that is replayed right away is in the window. -/
theorem replay_run_recent :
    let _ := Crates.standard
    let s : NodeDataPointers :=
      ⟨{ Blockchain.initial with headers := [genesisBlockHeader, (Block.minted 1).blockHeader] }, [], false⟩
    Throughout BlockCall.step (·.blockchain.headers.Nodup) s [.minted 1] ∧
      EachCall BlockCall.step BlockCall.ReplaySafe s [.minted 1] := by
  intro _ s
  have nodup : s.blockchain.headers.Nodup := by decide +kernel
  exact (replay_run nodup _).mpr (eachCall_cons.mpr ⟨fun b _ stored => stored, eachCall_nil⟩)

end BitcoinNode
