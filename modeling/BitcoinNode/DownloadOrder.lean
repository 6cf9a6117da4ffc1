import BitcoinNode.DownloadRuns
import BitcoinNode.SpendOrder
import BitcoinNode.UnspentOutputs

/-! The utxo set that the parallel download leaves. Blocks are applied in the order in which the
batches arrive, and a chunk whose peer fails is delivered again from its first block. The set is
that of the chain order exactly when every output that the segment spends is spent after the last
delivery of the block that makes it. -/
namespace BitcoinNode

section DownloadOrder

variable [Crates]

theorem load_utxo_set_run {rx : List (List Block)}
    (inputs : ∀ b ∈ rx.flatten, ∀ tx ∈ b.txn, tx.txIn ≠ []) :
    ∃ s : UtxoSet, (loadUtxoSet rx).run ∅ = (.ok (), s) ∧ s.Keyed ∧
      s.ledger = Ledger.run Ledger.empty (events rx.flatten) := by
  have batch : ∀ blocks ∈ rx, ∀ s, (Proc.each blocks fun block =>
      (block.giveMeUtxos.widen : Proc UtxoSet NodeCustomErrors Unit)).run s =
        (.ok (), blocks.foldl (fun s b => b.txn.foldl (fun s tx => tx.settle s) s) s) := by
    intro blocks listed
    apply Proc.run_each
    intro b member s
    have delivered : b ∈ rx.flatten := List.mem_flatten.mpr ⟨blocks, listed, member⟩
    rw [Proc.run_widen, Block.give_me_utxos_eq (inputs b delivered)]
    rfl
  have applied := Proc.run_each batch ∅
  rw [← List.foldl_flatten, ← List.foldl_flatMap] at applied
  obtain ⟨ledger, keyed⟩ := UtxoSet.settle_all (rx.flatten.flatMap Block.txn) ∅
  exact ⟨_, applied, keyed (by simp [UtxoSet.Keyed]), ledger⟩

/-- In a complete download whose peers send no other valid blocks, the utxo set is that of the
chain order exactly when every output is spent after its last creation in both orders or in
neither, unless two serializations share an id. For a chained segment this says that spends follow
what they spend, also after a chunk was delivered again. -/
theorem load_utxo_set_order {config : Config} {headers : List BlockHeader} {segment : List Block}
    {d : Download} (run : Download.Run config (TcpStream.Honest segment) headers d)
    (complete : d.Complete config) (segmentOf : segment.map Block.blockHeader =
      d.headers.drop config.heightFirstBlockToDownload) :
    ∃ loaded chainOrder : UtxoSet,
      (loadUtxoSet d.rxUtxoSet).run ∅ = (.ok (), loaded) ∧
      (Proc.each segment Block.giveMeUtxos).run ∅ = (.ok (), chainOrder) ∧
      ((∃ tx ∈ segment.flatMap Block.txn, ∃ tx' ∈ segment.flatMap Block.txn,
          tx.marshalling ≠ tx'.marshalling ∧ tx.hash = tx'.hash) ∨
        (loaded = chainOrder ↔
          ∀ tx ∈ segment.flatMap Block.txn, ∀ index < tx.txOut.length,
            (Ledger.SpentSince (events d.rxUtxoSet.flatten) tx.hash index ↔
              Ledger.SpentSince (events segment) tx.hash index))) ∧
      (Chained segment → (loaded = chainOrder ↔ SpendsFollow segment d.rxUtxoSet.flatten)) := by
  have sound := run.sound
  have all := sound.complete complete segmentOf
  have same : ∀ b, b ∈ d.rxUtxoSet.flatten ↔ b ∈ segment :=
    fun b => ⟨fun delivered => (sound.delivered b delivered).requested, all b⟩
  have valid : ∀ b ∈ segment, b.WellFormed := fun b listed => (sound.delivered b (all b listed)).decoded
  have wellFormed : ∀ tx ∈ segment.flatMap Block.txn, tx.WellFormed := by
    intro tx member
    obtain ⟨b, listed, inside⟩ := List.mem_flatMap.mp member
    exact (valid b listed).transactions tx inside
  obtain ⟨loaded, load, keyed, ledger⟩ := @load_utxo_set_run _ d.rxUtxoSet
    fun b delivered tx inside => ((sound.delivered b delivered).decoded.transactions tx inside).nonempty
  obtain ⟨chainOrder, apply, keyed', ledger'⟩ := @give_me_utxos_run _ segment
    fun tx member => (wellFormed tx member).nonempty
  have decided : loaded = chainOrder ↔ Ledger.run Ledger.empty (events d.rxUtxoSet.flatten) =
      Ledger.run Ledger.empty (events segment) := by
    rw [← ledger, events, ← ledger']
    exact ⟨fun equal => by rw [equal], UtxoSet.eq_of_ledger keyed keyed'⟩
  refine ⟨loaded, chainOrder, load, apply, ?_, fun chained => ?_⟩
  · apply or_iff_not_imp_left.mpr
    intro unique
    apply decided.trans (events_run_eq_iff same _)
    intro tx member tx' member' id
    have serialization : tx.marshalling = tx'.marshalling := by
      by_contra differ
      exact unique ⟨tx, member, tx', member', differ, id⟩
    rw [Transaction.eq_of_marshalling (wellFormed tx member) (wellFormed tx' member') serialization]
  · apply decided.trans ((events_run_eq_iff same _).trans (chained.order_iff same))
    intro tx member tx' member' id
    rw [List.inj_on_of_nodup_map chained.distinct member member' id]

theorem two_threads_run {a b : Block} {headers : List BlockHeader} {merged : List Effect}
    (valid : ∀ x ∈ [a, b], x.WellFormed ∧ x.Accepted)
    (interleaved : Interleaving [[], served a, served b] merged) :
    Download.Run ⟨2, 1, 1⟩ (TcpStream.Honest [a, b]) headers
      (merged.foldl Effect.apply ⟨headers, [], [], ∅⟩) := by
  have first := thread_run_serving (valid a (by simp)).1 (valid a (by simp)).2 2 1 a.blockHeader
  have second := thread_run_serving (valid b (by simp)).1 (valid b (by simp)).2 2 1 b.blockHeader
  have divided (x y : BlockHeader) :
      Config.chunksToDownload ⟨2, 1, 1⟩ [x, y] = .ok [[x], [y]] := by
    simp [Config.chunksToDownload, divideBlocksToDownloadInEqualChunks, chunks,
      equalChunkSize, List.range_succ]
  let jobs := [([a.blockHeader], TcpStream.serving a), ([b.blockHeader], TcpStream.serving b)]
  have announce := @Download.Step.headers _ ⟨2, 1, 1⟩ (TcpStream.Honest [a, b]) ⟨headers, [], [], ∅⟩
    (.sendHeaders [a.blockHeader, b.blockHeader]) trivial
  apply (Relation.ReflTransGen.single announce).tail
  refine @Download.Step.round _ _ _ _ _ [] jobs [] merged rfl (by simp) (divided _ _) ?_ ?_ (by simp) ?_
  · intro job member
    rcases List.mem_pair.mp member with rfl | rfl
    · exact serving_honest (valid a (by simp)).1 (by simp)
    · exact serving_honest (valid b (by simp)).1 (by simp)
  · intro job member
    rcases List.mem_pair.mp member with rfl | rfl
    · exact first.1
    · exact second.1
  · simpa [jobs, first.2, second.2] using interleaved

/-- The state after two blocks arrived in this order. -/
def Download.two (headers : List BlockHeader) (a b : Block) : Download :=
  (served a ++ served b).foldl Effect.apply ⟨headers, [], [], ∅⟩

theorem Download.two_complete {headers : List BlockHeader} {a b : Block}
    (distinct : a.hash ≠ b.hash) (length : headers.length = 3) :
    (two headers a b).Complete ⟨2, 1, 1⟩ := by
  have stored : (two headers a b).blocks.keys = {a.hash, b.hash} := by
    ext hash
    rw [two, keys_apply_effects]
    simp [served, HashMap.mem_keys_insert, or_and_right, exists_or]
  have kept : (two headers a b).headers = headers := rfl
  rw [Complete, HashMap.len, stored, Finset.card_pair distinct, kept, length]

/-- An output is made in one block and spent in another. -/
def Transaction.created : Transaction := .mint 1 [⟨50, ⟨[1]⟩, ⟨[0x51]⟩⟩]
def Transaction.spending : Transaction := .pay created.hash 0 [⟨50, ⟨[1]⟩, ⟨[0x51]⟩⟩]
def Block.creating : Block := .mined (U8Array.replicate 32 0) Transaction.created.hash [.created]
def Block.consuming : Block := .mined (U8Array.replicate 32 0) Transaction.spending.hash [.spending]

theorem created_entries (different : Transaction.created.hash ≠ Transaction.spending.hash) :
    Ledger.run Ledger.empty (events [.creating, .consuming]) Transaction.created.hash = some [] ∧
      Ledger.run Ledger.empty (events [.consuming, .creating]) Transaction.created.hash =
        some Transaction.created.txOut.zipIdx := by
  have silent : Ledger.Silent [Transaction.spending.event] Transaction.created.event.key := by
    intro e member
    rw [List.mem_singleton.mp member]
    exact different.symm
  have spent : Ledger.Spent [Transaction.spending.event] Transaction.created.event.key 0 :=
    ⟨_, List.mem_singleton_self _, List.mem_singleton_self (Transaction.created.hash, 0)⟩
  have dropped : ¬decide (¬Ledger.Spent [Transaction.spending.event] Transaction.created.event.key 0) :=
    fun kept => of_decide_eq_true kept spent
  have kept : Ledger.Silent ([] : List (Ledger.Event Hash TxOut)) Transaction.created.event.key := by
    simp [Ledger.Silent]
  constructor
  · change Ledger.run Ledger.empty ([] ++ Transaction.created.event :: [Transaction.spending.event])
      Transaction.created.event.key = _
    rw [Ledger.run_last silent]
    change some (List.filter _ [((⟨50, ⟨[1]⟩, ⟨[0x51]⟩⟩ : TxOut), 0)]) = _
    exact congrArg some (List.filter_cons_of_neg dropped)
  · change Ledger.run Ledger.empty ([Transaction.spending.event] ++ Transaction.created.event :: [])
      Transaction.created.event.key = _
    rw [Ledger.run_last kept]
    rfl

theorem creating_chained (different : Transaction.created.hash ≠ Transaction.spending.hash) :
    Chained [.creating, .consuming] := by
  have txs : [Block.creating, Block.consuming].flatMap Block.txn = [.created, .spending] := rfl
  have none : Transaction.created.spends = [] := rfl
  have one : Transaction.spending.spends = [(Transaction.created.hash, 0)] := rfl
  constructor
  case distinct => simpa [txs] using different
  case earlier =>
    intro before tx after split other member index
    rw [txs] at split
    rcases before with _ | ⟨x, _ | ⟨y, before⟩⟩
    · obtain ⟨rfl, _⟩ := List.cons.inj split
      rw [List.mem_singleton.mp member, none]
      exact List.not_mem_nil
    · obtain ⟨rfl, tail⟩ := List.cons.inj split
      obtain ⟨rfl, _⟩ := List.cons.inj tail
      rcases List.mem_pair.mp member with rfl | rfl
      · rw [none]
        exact List.not_mem_nil
      · rw [one, List.mem_singleton]
        exact fun same => different (Prod.mk.inj same).1.symm
    · simp at split

end DownloadOrder

theorem standard_pair :
    let _ := Crates.standard
    (∀ x ∈ [Block.creating, Block.consuming], x.WellFormed ∧ x.Accepted) ∧
      Transaction.created.hash ≠ Transaction.spending.hash ∧ Block.creating.hash ≠ Block.consuming.hash := by
  intro _
  have count : (CompactSizeUint.new 1).Counts 1 := ⟨⟨1, [], rfl, rfl⟩, rfl⟩
  have outputs : ∀ txout ∈ Transaction.created.txOut, txout.WellFormed := by
    intro txout member
    obtain rfl := List.mem_singleton.mp member
    exact ⟨⟨1, [], rfl, rfl⟩, rfl⟩
  refine ⟨fun x member => ?_, by decide +kernel, by decide +kernel⟩
  rcases List.mem_pair.mp member with rfl | rfl
  · exact ⟨Block.mined_wellFormed (Transaction.mint_wellFormed 1 count outputs),
      Block.mined_accepted (by decide +kernel) (by decide +kernel)⟩
  · exact ⟨Block.mined_wellFormed (Transaction.pay_wellFormed (by decide +kernel) count outputs),
      Block.mined_accepted (by decide +kernel) (by decide +kernel)⟩

/-- The block that spends arrives first: its output stays in the set. -/
theorem load_utxo_set_stale :
    let _ := Crates.standard
    let segment := [Block.creating, Block.consuming]
    let headers := genesisBlockHeader :: segment.map Block.blockHeader
    let d := Download.two headers .consuming .creating
    Download.Run ⟨2, 1, 1⟩ (TcpStream.Honest segment) headers d ∧ d.Complete ⟨2, 1, 1⟩ ∧
      segment.map Block.blockHeader = d.headers.drop 1 ∧
      ∃ loaded chainOrder : UtxoSet,
        (loadUtxoSet d.rxUtxoSet).run ∅ = (.ok (), loaded) ∧
        (Proc.each segment Block.giveMeUtxos).run ∅ = (.ok (), chainOrder) ∧
        loaded.held Transaction.created.hash = [(⟨50, ⟨[1]⟩, ⟨[0x51]⟩⟩, 0)] ∧
        chainOrder.held Transaction.created.hash = [] ∧ loaded ≠ chainOrder := by
  intro _ segment headers d
  obtain ⟨valid, different, apart⟩ := standard_pair
  obtain ⟨spent, kept⟩ := created_entries different
  have order : Interleaving [[], served Block.creating, served Block.consuming]
      (served .consuming ++ served .creating) :=
    @Interleaving.part _ [[], served .creating] [] _ (served .consuming)
      (@Interleaving.part _ [[]] [[]] [] (served .creating) (.done (by simp)))
  have inputs : ∀ b ∈ d.rxUtxoSet.flatten, ∀ tx ∈ b.txn, tx.txIn ≠ [] := by decide +kernel
  obtain ⟨loaded, load, _, ledger⟩ := load_utxo_set_run inputs
  obtain ⟨chainOrder, apply, _, ledger'⟩ := @give_me_utxos_run _ segment (by decide +kernel)
  have stale : loaded.held Transaction.created.hash = [(⟨50, ⟨[1]⟩, ⟨[0x51]⟩⟩, 0)] := by
    rw [UtxoSet.held, ledger]
    exact congrArg (Option.getD · []) kept
  have gone : chainOrder.held Transaction.created.hash = [] := by
    rw [UtxoSet.held, ledger']
    exact congrArg (Option.getD · []) spent
  refine ⟨two_threads_run valid order, Download.two_complete apart.symm rfl, rfl, loaded, chainOrder,
    load, apply, stale, gone, fun same => ?_⟩
  rw [same, gone] at stale
  cases stale

/-- With the blocks in chain order the condition is met. -/
theorem load_utxo_set_order_chain :
    let _ := Crates.standard
    let segment := [Block.creating, Block.consuming]
    let d := Download.two (genesisBlockHeader :: segment.map Block.blockHeader) .creating .consuming
    ∃ loaded chainOrder : UtxoSet,
      (loadUtxoSet d.rxUtxoSet).run ∅ = (.ok (), loaded) ∧
      (Proc.each segment Block.giveMeUtxos).run ∅ = (.ok (), chainOrder) ∧ loaded = chainOrder := by
  intro _ segment d
  obtain ⟨valid, different, apart⟩ := standard_pair
  have chained := creating_chained different
  have order : Interleaving [[], served Block.creating, served Block.consuming]
      (served .creating ++ served .consuming) :=
    @Interleaving.part _ [[]] [served .consuming] _ (served .creating)
      (@Interleaving.part _ [[], []] [] [] (served .consuming) (.done (by simp)))
  have run : Download.Run ⟨2, 1, 1⟩ (TcpStream.Honest segment)
      (genesisBlockHeader :: segment.map Block.blockHeader) d := two_threads_run valid order
  obtain ⟨loaded, chainOrder, load, apply, _, follows⟩ :=
    load_utxo_set_order run (Download.two_complete apart rfl) rfl
  exact ⟨loaded, chainOrder, load, apply, (follows chained).mpr chained.follows⟩

end BitcoinNode
