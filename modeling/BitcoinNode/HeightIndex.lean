import BitcoinNode.Handlers

/-! The index from header hashes to heights, under any sequence of headers and block messages.
Announcing a header loads a height for it before it is stored, also when it is stored already. -/
namespace BitcoinNode

/-- A call of one of the two handlers that write headers or heights. -/
inductive ChainCall where
  | headers (payload : List UInt8) (open_ : Bool)
  | block (payload : List UInt8) (order : UtxoSet → List (Hash × UtxoTuple))

section HeightIndex

variable [Crates]

def ChainCall.step (s : NodeDataPointers) : ChainCall → NodeDataPointers
  | .headers payload open_ => ((handleHeadersMessage payload).run ⟨s, ⟨open_, []⟩⟩).2.node
  | .block payload order => ((handleBlockMessage payload order).run s).2

/-- `headerHeights` sends the hash of every stored header but the first to its position. -/
def Blockchain.Indexed (chain : Blockchain) : Prop :=
  ∀ k, 1 ≤ k → ∀ header, chain.headers[k]? = some header →
    chain.headerHeights.get header.hash = some k

/-- Lookups find what they ask for, and every stored header but the first is found. -/
structure Blockchain.IndexConsistent (chain : Blockchain) : Prop where
  sound : ∀ hash, hash ≠ sentinel → ∀ header k, chain.searchHeader hash = some (header, k) →
    header.hash = hash ∧ chain.headers[k]? = some header
  complete : ∀ k, 1 ≤ k → ∀ header, chain.headers[k]? = some header →
    chain.searchHeader header.hash = some (header, k)

/-- No key but the sentinel points at a stored header with another hash. -/
def Blockchain.NoStrayKeys (chain : Blockchain) : Prop :=
  ∀ hash, hash ≠ sentinel → ∀ k, chain.headerHeights.get hash = some k →
    ∀ header, chain.headers[k]? = some header → header.hash = hash

theorem Blockchain.indexConsistent_iff {chain : Blockchain} :
    chain.IndexConsistent ↔ chain.NoStrayKeys ∧ chain.Indexed := by
  constructor
  · intro consistent
    refine ⟨fun hash other k found header stored => ?_, fun k later header stored => ?_⟩
    · exact (consistent.sound hash other header k (search_header_eq_some.mpr ⟨found, stored⟩)).1
    · exact (search_header_eq_some.mp (consistent.complete k later header stored)).1
  · rintro ⟨noStray, indexed⟩
    refine ⟨fun hash other header k found => ?_, fun k later header stored => ?_⟩
    · obtain ⟨height, stored⟩ := search_header_eq_some.mp found
      exact ⟨noStray hash other k height header stored, stored⟩
    · exact search_header_eq_some.mpr ⟨indexed k later header stored, stored⟩

/-- No header but the first has this hash. -/
def Blockchain.Fresh (chain : Blockchain) (hash : Hash) : Prop :=
  ∀ k, 1 ≤ k → ∀ header, chain.headers[k]? = some header → header.hash ≠ hash

/-- What keeps the index right. A headers message loads heights for headers that are not stored
yet; a block that is applied is not stored yet, and no other header was announced for its place. -/
def ChainCall.Harmless (s : NodeDataPointers) : ChainCall → Prop
  | .headers payload open_ =>
    ∀ header ∈ announced s.blockchain.headers open_ payload, s.blockchain.Fresh header.hash
  | .block payload _ => ∀ b, NewBlock s.blockchain.headers payload b →
    s.blockchain.Fresh b.hash ∧ ∀ hash, hash ≠ sentinel → hash ≠ b.hash →
      s.blockchain.headerHeights.get hash ≠ some s.blockchain.headers.length

theorem load_all_heights (headers : List BlockHeader) (s : NodeDataPointers) :
    let s' := headers.foldl (fun node header => node.onBlockchain (loadHeaderHeights [header])) s
    s'.blockchain.headers = s.blockchain.headers ∧
      (∀ hash ∈ headers.map BlockHeader.hash,
        s'.blockchain.headerHeights.get hash = some s.blockchain.headers.length) ∧
      ∀ hash ∉ headers.map BlockHeader.hash,
        s'.blockchain.headerHeights.get hash = s.blockchain.headerHeights.get hash := by
  induction headers generalizing s with
  | nil => simp
  | cons header rest ih =>
    obtain ⟨headers, loaded, others⟩ := ih (s.onBlockchain (loadHeaderHeights [header]))
    refine ⟨headers, fun hash member => ?_, fun hash absent => ?_⟩
    · by_cases later : hash ∈ rest.map BlockHeader.hash
      · exact loaded hash later
      · obtain rfl : hash = header.hash := by simpa [later] using member
        rw [List.foldl_cons, others _ later]
        exact HashMap.get_insert _ _ _
    · rw [List.map_cons, List.mem_cons, not_or] at absent
      rw [List.foldl_cons, others hash absent.2]
      exact HashMap.get_insert_of_ne _ absent.1 _

theorem headers_step_iff {s : NodeDataPointers} (payload : List UInt8) (open_ : Bool)
    (consistent : s.blockchain.IndexConsistent) :
    (ChainCall.step s (.headers payload open_)).blockchain.IndexConsistent ↔
      ChainCall.Harmless s (.headers payload open_) := by
  have step := handle_headers_message_node payload ⟨s, ⟨open_, []⟩⟩
  obtain ⟨same, loaded, others⟩ :=
    load_all_heights (announced s.blockchain.headers open_ payload) s
  obtain ⟨noStray, indexed⟩ := Blockchain.indexConsistent_iff.mp consistent
  rw [ChainCall.step, step, Blockchain.indexConsistent_iff]
  simp only at same loaded others ⊢
  constructor
  · -- A stored header that is announced is sent past the end.
    rintro ⟨_, after⟩ header member k later stored atK sameHash
    have found := after k later stored (by rw [same, atK])
    rw [loaded stored.hash (sameHash ▸ List.mem_map_of_mem member)] at found
    have inside := (List.getElem?_eq_some_iff.mp atK).1
    simp only [Option.some.injEq] at found
    omega
  · intro harmless
    refine ⟨fun hash other k found header stored => ?_, fun k later header stored => ?_⟩
    · rw [same] at stored
      by_cases member : hash ∈ (announced s.blockchain.headers open_ payload).map BlockHeader.hash
      · rw [loaded hash member] at found
        have inside := (List.getElem?_eq_some_iff.mp stored).1
        simp only [Option.some.injEq] at found
        omega
      · rw [others hash member] at found
        exact noStray hash other k found header stored
    · rw [same] at stored
      rw [others, indexed k later header stored]
      intro member
      obtain ⟨announcement, listed, sameHash⟩ := List.mem_map.mp member
      exact harmless announcement listed k later header stored sameHash.symm

theorem block_step_iff {s : NodeDataPointers} (payload : List UInt8)
    (order : UtxoSet → List (Hash × UtxoTuple)) (consistent : s.blockchain.IndexConsistent) :
    (ChainCall.step s (.block payload order)).blockchain.IndexConsistent ↔
      ChainCall.Harmless s (.block payload order) := by
  by_cases new : ∃ b, NewBlock s.blockchain.headers payload b
  · obtain ⟨b, new⟩ := new
    have index := apply_new_block_index b order s
    rw [← handle_block_message_new new order] at index
    obtain ⟨headers, heights⟩ := Prod.mk.inj index
    obtain ⟨noStray, indexed⟩ := Blockchain.indexConsistent_iff.mp consistent
    have only : ChainCall.Harmless s (.block payload order) ↔ s.blockchain.Fresh b.hash ∧
        ∀ hash, hash ≠ sentinel → hash ≠ b.hash →
          s.blockchain.headerHeights.get hash ≠ some s.blockchain.headers.length :=
      ⟨fun harmless => harmless b new, fun harmless b' new' => new.unique new' ▸ harmless⟩
    rw [only, ChainCall.step, Blockchain.indexConsistent_iff, Blockchain.NoStrayKeys,
      Blockchain.Indexed, headers, heights]
    constructor
    · rintro ⟨sound, complete⟩
      refine ⟨fun k later header stored sameHash => ?_, fun hash other different found => ?_⟩
      · have inside := (List.getElem?_eq_some_iff.mp stored).1
        have found := complete k later header (by rw [List.getElem?_append_left inside, stored])
        rw [sameHash, HashMap.get_insert] at found
        simp only [Option.some.injEq] at found
        omega
      · rw [← HashMap.get_insert_of_ne _ different s.blockchain.headers.length] at found
        exact different (sound hash other _ found b.blockHeader List.getElem?_concat_length).symm
    · rintro ⟨fresh, free⟩
      refine ⟨fun hash other k found header stored => ?_, fun k later header stored => ?_⟩
      · by_cases own : hash = b.hash
        · subst own
          rw [HashMap.get_insert] at found
          obtain rfl := Option.some.inj found
          rw [List.getElem?_concat_length] at stored
          exact congrArg BlockHeader.hash (Option.some.inj stored).symm
        · rw [HashMap.get_insert_of_ne _ own] at found
          have place : k ≠ s.blockchain.headers.length := by
            rintro rfl
            exact free hash other own found
          have bound := (List.getElem?_eq_some_iff.mp stored).1
          rw [List.length_append, List.length_singleton] at bound
          rw [List.getElem?_append_left (by omega)] at stored
          exact noStray hash other k found header stored
      · by_cases last : k = s.blockchain.headers.length
        · subst last
          rw [List.getElem?_concat_length] at stored
          obtain rfl := Option.some.inj stored
          exact HashMap.get_insert _ _ _
        · have bound := (List.getElem?_eq_some_iff.mp stored).1
          rw [List.length_append, List.length_singleton] at bound
          rw [List.getElem?_append_left (by omega)] at stored
          rw [HashMap.get_insert_of_ne _ (fresh k later header stored)]
          exact indexed k later header stored
  · have other : ∀ b, ¬NewBlock s.blockchain.headers payload b := fun b new' => new ⟨b, new'⟩
    rw [ChainCall.step, handle_block_message_other other]
    exact iff_of_true consistent fun b new' => absurd new' (other b)

theorem ChainCall.step_iff (s : NodeDataPointers) (call : ChainCall)
    (consistent : s.blockchain.IndexConsistent) :
    (ChainCall.step s call).blockchain.IndexConsistent ↔ ChainCall.Harmless s call := by
  cases call with
  | headers payload open_ => exact headers_step_iff payload open_ consistent
  | block payload order => exact block_step_iff payload order consistent

/-- From an indexed chain, the index is right in every state of a run exactly when no stray key
pointed at a stored header to begin with and every call is harmless in the state it is made in. -/
theorem height_index_run {s : NodeDataPointers} (indexed : s.blockchain.Indexed)
    (calls : List ChainCall) :
    Throughout ChainCall.step (·.blockchain.IndexConsistent) s calls ↔
      s.blockchain.NoStrayKeys ∧ EachCall ChainCall.step ChainCall.Harmless s calls := by
  rw [throughout_iff ChainCall.step_iff, Blockchain.indexConsistent_iff, and_iff_left indexed]

end HeightIndex

def BlockHeader.easy (time : UInt32) : BlockHeader :=
  ⟨1, U8Array.replicate 32 0, U8Array.replicate 32 0, time, 0x20ffffff, 0⟩

def NodeDataPointers.short [Crates] : NodeDataPointers :=
  ⟨⟨[genesisBlockHeader, .easy 1], ∅,
    ((∅ : HashMap Hash Nat).insert sentinel 0).insert (BlockHeader.easy 1).hash 1, ∅⟩, [], false⟩

def announcement (header : BlockHeader) : List UInt8 := 1 :: header.marshalling ++ [0]

theorem NodeDataPointers.short_stored [Crates] {k : Nat} {header : BlockHeader} (later : 1 ≤ k)
    (stored : short.blockchain.headers[k]? = some header) : k = 1 ∧ header = .easy 1 := by
  obtain rfl : k = 1 := by
    have bound := (List.getElem?_eq_some_iff.mp stored).1
    simp only [short, List.length_cons, List.length_nil] at bound
    omega
  exact ⟨rfl, (Option.some.inj stored).symm⟩

theorem NodeDataPointers.short_consistent [Crates] :
    short.blockchain.Indexed ∧ short.blockchain.NoStrayKeys := by
  constructor
  · intro k later header stored
    obtain ⟨rfl, rfl⟩ := short_stored later stored
    exact HashMap.get_insert _ _ _
  · intro hash different k found header stored
    by_cases own : hash = (BlockHeader.easy 1).hash
    · subst own
      obtain rfl : 1 = k := Option.some.inj ((HashMap.get_insert _ _ _).symm.trans found)
      exact congrArg BlockHeader.hash (Option.some.inj stored).symm
    · rw [short, HashMap.get_insert_of_ne _ own, HashMap.get_insert_of_ne _ different] at found
      simp at found

/-- Announcing the header that is stored at height 1 loses it. -/
theorem height_index_lost :
    let _ := Crates.standard
    let s := NodeDataPointers.short
    let after := ChainCall.step s (.headers (announcement (.easy 1)) true)
    s.blockchain.Indexed ∧ s.blockchain.NoStrayKeys ∧
      after.blockchain.headers[1]? = some (BlockHeader.easy 1) ∧
      after.blockchain.searchHeader (BlockHeader.easy 1).hash = none ∧
      ¬after.blockchain.IndexConsistent := by
  intro _ s after
  obtain ⟨indexed, noStray⟩ := NodeDataPointers.short_consistent
  have listed : announced s.blockchain.headers true (announcement (.easy 1)) = [.easy 1] := by
    decide +kernel
  obtain ⟨headers, loaded, _⟩ := load_all_heights [.easy 1] s
  have node := handle_headers_message_node (announcement (.easy 1)) ⟨s, ⟨true, []⟩⟩
  rw [listed] at node
  have stored : after.blockchain.headers = s.blockchain.headers :=
    (congrArg (·.blockchain.headers) node).trans headers
  have found : after.blockchain.headerHeights.get (BlockHeader.easy 1).hash = some 2 :=
    (congrArg (·.blockchain.headerHeights.get (BlockHeader.easy 1).hash) node).trans
      (loaded _ (by simp))
  have lost : after.blockchain.searchHeader (BlockHeader.easy 1).hash = none := by
    rw [Blockchain.searchHeader, found, stored]
    rfl
  have at_one : after.blockchain.headers[1]? = some (BlockHeader.easy 1) := by rw [stored]; rfl
  refine ⟨indexed, noStray, at_one, lost, fun consistent => ?_⟩
  have again := consistent.complete 1 (Nat.le_refl 1) _ at_one
  simp [lost] at again

theorem height_index_run_short :
    let _ := Crates.standard
    Throughout ChainCall.step (·.blockchain.IndexConsistent) NodeDataPointers.short
      [.headers (announcement (.easy 2)) true] := by
  intro _
  obtain ⟨indexed, noStray⟩ := NodeDataPointers.short_consistent
  have listed : announced NodeDataPointers.short.blockchain.headers true (announcement (.easy 2)) =
      [.easy 2] := by
    decide +kernel
  have fresh : (BlockHeader.easy 1).hash ≠ (BlockHeader.easy 2).hash := by decide +kernel
  refine (height_index_run indexed _).mpr ⟨noStray, eachCall_cons.mpr ⟨?_, eachCall_nil⟩⟩
  intro header member k later stored atK
  rw [listed, List.mem_singleton] at member
  subst member
  obtain ⟨rfl, rfl⟩ := NodeDataPointers.short_stored later atK
  exact fresh

end BitcoinNode
