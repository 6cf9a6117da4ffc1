import BitcoinNode.Handlers

/-! The two ways headers are appended: batches of the initial download and block messages. Both
look at the proof of work of a header and at nothing before it. -/
namespace BitcoinNode

/-- A headers batch of the initial download, or a block message. -/
inductive ChainEvent where
  | batch (headersRead : List BlockHeader)
  | block (payload : List UInt8) (order : UtxoSet → List (Hash × UtxoTuple))

section Linkage

variable [Crates]

/-- Every header from the second on names the hash of the one before it. -/
def Linked (headers : List BlockHeader) : Prop :=
  ∀ i, 1 ≤ i → ∀ parent child, headers[i]? = some parent → headers[i + 1]? = some child →
    child.previousBlockHeaderHash = parent.hash

def validateHeaders : List BlockHeader → Outcome NodeCustomErrors Unit
  | [] => return ()
  | header :: rest => do
    let valid ← Outcome.widen header.validate
    if !valid then Outcome.fail (.InvalidHeaderError "partial validation of header is invalid!")
    else validateHeaders rest

def storeHeadersInLocalHeadersVec (headersRead : List BlockHeader) :
    Proc (List BlockHeader) NodeCustomErrors Unit := do
  Proc.lift (validateHeaders headersRead)
  Proc.modify (· ++ headersRead)

def ChainEvent.step (s : NodeDataPointers) : ChainEvent → NodeDataPointers
  | .batch headersRead => s.onBlockchain fun chain => { chain with
      headers := ((storeHeadersInLocalHeadersVec headersRead).run chain.headers).2 }
  | .block payload order => ((handleBlockMessage payload order).run s).2

/-- The headers an event appends, if it appends any. -/
def ChainEvent.Appends (s : NodeDataPointers) : ChainEvent → List BlockHeader → Prop
  | .batch headersRead, added =>
    added = headersRead ∧ ∀ header ∈ headersRead, header.validate = .ok true
  | .block payload _, added =>
    ∃ b, NewBlock s.blockchain.headers payload b ∧ added = [b.blockHeader]

/-- Each appended header names the hash of the header that is stored right before it. -/
def ChainEvent.NamesParents (s : NodeDataPointers) (event : ChainEvent) : Prop :=
  ∀ added, event.Appends s added → ∀ i, 1 ≤ i → s.blockchain.headers.length ≤ i + 1 →
    ∀ parent child, (s.blockchain.headers ++ added)[i]? = some parent →
      (s.blockchain.headers ++ added)[i + 1]? = some child →
      child.previousBlockHeaderHash = parent.hash

theorem validate_headers_eq_ok {headers : List BlockHeader} :
    validateHeaders headers = .ok () ↔ ∀ header ∈ headers, header.validate = .ok true := by
  induction headers with
  | nil => simp [validateHeaders]
  | cons header rest ih =>
    rcases validated : header.validate with e | (_ | _)
    · simp [validateHeaders, validated]
    · simp [validateHeaders, validated, Outcome.fail]
    · simp [validateHeaders, validated, ih]

theorem store_headers_run (headersRead headers : List BlockHeader) :
    ((storeHeadersInLocalHeadersVec headersRead).run headers).2 =
      if validateHeaders headersRead = .ok () then headers ++ headersRead else headers := by
  rw [storeHeadersInLocalHeadersVec, Proc.run_bind, Proc.run_lift]
  rcases validateHeaders headersRead with e | _ <;> simp

theorem ChainEvent.step_cases (s : NodeDataPointers) (event : ChainEvent) :
    (∃ added, event.Appends s added ∧
      (event.step s).blockchain.headers = s.blockchain.headers ++ added) ∨
    ((∀ added, ¬event.Appends s added) ∧
      (event.step s).blockchain.headers = s.blockchain.headers) := by
  cases event with
  | batch headersRead =>
    have stored := store_headers_run headersRead s.blockchain.headers
    by_cases valid : validateHeaders headersRead = .ok ()
    · rw [if_pos valid] at stored
      exact .inl ⟨headersRead, ⟨rfl, validate_headers_eq_ok.mp valid⟩, stored⟩
    · rw [if_neg valid] at stored
      exact .inr ⟨fun added appends => valid (validate_headers_eq_ok.mpr appends.2), stored⟩
  | block payload order =>
    by_cases new : ∃ b, NewBlock s.blockchain.headers payload b
    · obtain ⟨b, new⟩ := new
      refine .inl ⟨[b.blockHeader], ⟨b, new, rfl⟩, ?_⟩
      rw [step, handle_block_message_new new]
      exact congrArg Prod.fst (apply_new_block_index b order s)
    · have other : ∀ b, ¬NewBlock s.blockchain.headers payload b := fun b new' => new ⟨b, new'⟩
      refine .inr ⟨fun added ⟨b, new', _⟩ => other b new', ?_⟩
      rw [step, handle_block_message_other other]

theorem ChainEvent.Appends.unique {s : NodeDataPointers} {event : ChainEvent}
    {added added' : List BlockHeader} (appends : event.Appends s added)
    (appends' : event.Appends s added') : added = added' := by
  cases event with
  | batch headersRead => exact appends.1.trans appends'.1.symm
  | block payload order =>
    obtain ⟨b, new, rfl⟩ := appends
    obtain ⟨b', new', rfl⟩ := appends'
    rw [new.unique new']

theorem ChainEvent.Appends.valid {s : NodeDataPointers} {event : ChainEvent}
    {added : List BlockHeader} (appends : event.Appends s added) :
    ∀ header ∈ added, header.validate = .ok true := by
  cases event with
  | batch headersRead =>
    obtain ⟨rfl, valid⟩ := appends
    exact valid
  | block payload order =>
    obtain ⟨b, new, rfl⟩ := appends
    intro header member
    obtain rfl := List.mem_singleton.mp member
    exact (Block.accepted_iff.mp new.1.2).1

theorem ChainEvent.linked_iff (s : NodeDataPointers) (event : ChainEvent)
    (linked : Linked s.blockchain.headers) :
    Linked (event.step s).blockchain.headers ↔ event.NamesParents s := by
  rcases event.step_cases s with ⟨added, appends, headers⟩ | ⟨none, headers⟩
  · rw [headers]
    constructor
    · intro after added' appends' i later _ parent child
      rw [← appends.unique appends']
      exact after i later parent child
    · intro names i later parent child atParent atChild
      by_cases old : i + 1 < s.blockchain.headers.length
      · rw [List.getElem?_append_left (by omega)] at atParent atChild
        exact linked i later parent child atParent atChild
      · exact names added appends i later (by omega) parent child atParent atChild
  · rw [headers]
    exact iff_of_true linked fun added appends => absurd appends (none added)

/-- Headers that come after the first have passed their proof of work. -/
def Grown (first : BlockHeader) (headers : List BlockHeader) : Prop :=
  ∃ later, headers = first :: later ∧ ∀ header ∈ later, header.validate = .ok true

theorem ChainEvent.grown {s : NodeDataPointers} {first : BlockHeader} (event : ChainEvent)
    (grown : Grown first s.blockchain.headers) : Grown first (event.step s).blockchain.headers := by
  rcases event.step_cases s with ⟨added, appends, headers⟩ | ⟨_, headers⟩
  · obtain ⟨later, shape, valid⟩ := grown
    refine ⟨later ++ added, by rw [headers, shape, List.cons_append], fun header member => ?_⟩
    rcases List.mem_append.mp member with old | new
    · exact valid header old
    · exact appends.valid header new
  · rwa [headers]

/-- From the genesis header, headers are appended with valid proofs of work only, and they are
linked throughout a run exactly when every appended header names the one stored before it. -/
theorem linkage_run {s : NodeDataPointers} (start : s.blockchain.headers = [genesisBlockHeader])
    (events : List ChainEvent) :
    Throughout ChainEvent.step (Grown genesisBlockHeader ·.blockchain.headers) s events ∧
      (Throughout ChainEvent.step (Linked ·.blockchain.headers) s events ↔
        EachCall ChainEvent.step (fun s event => event.NamesParents s) s events) := by
  have linked : Linked s.blockchain.headers := by
    intro i later parent child stored
    rw [start] at stored
    have inside := (List.getElem?_eq_some_iff.mp stored).1
    simp only [List.length_singleton] at inside
    omega
  refine ⟨.of_step (fun _ event => event.grown) ⟨[], start, by simp⟩ events, ?_⟩
  exact (throughout_iff ChainEvent.linked_iff).trans (and_iff_right linked)

end Linkage

/-- Two headers with valid proofs of work that both name the zero hash. -/
def unlinked : ChainEvent :=
  .batch [⟨1, U8Array.replicate 32 0, U8Array.replicate 32 0, 1, 0x20ffffff, 0⟩,
    ⟨1, U8Array.replicate 32 0, U8Array.replicate 32 0, 2, 0x20ffffff, 0⟩]

/-- The batch is stored whole, and its second header does not name its first. -/
theorem linkage_run_unlinked :
    let _ := Crates.standard
    let s : NodeDataPointers := ⟨.initial, [], false⟩
    (unlinked.step s).blockchain.headers.length = 3 ∧ ¬Linked (unlinked.step s).blockchain.headers := by
  intro _ s
  have headers : (unlinked.step s).blockchain.headers = genesisBlockHeader ::
      [⟨1, U8Array.replicate 32 0, U8Array.replicate 32 0, 1, 0x20ffffff, 0⟩,
        ⟨1, U8Array.replicate 32 0, U8Array.replicate 32 0, 2, 0x20ffffff, 0⟩] := by
    decide +kernel
  rw [headers]
  refine ⟨rfl, fun linked => ?_⟩
  have named := linked 1 (Nat.le_refl 1) _ _ rfl rfl
  revert named
  decide +kernel

theorem linkage_run_genesis :
    let _ := Crates.standard
    let s : NodeDataPointers := ⟨.initial, [], false⟩
    Throughout ChainEvent.step (Grown genesisBlockHeader ·.blockchain.headers) s [unlinked] := by
  intro _ s
  exact (@linkage_run _ s rfl [unlinked]).1

end BitcoinNode
