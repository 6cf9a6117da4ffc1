import BitcoinNode.BlocksDownload

/-! What reaches the thread of the utxo set in a run of the download. If the peers send no other
valid blocks than those of the segment, a complete download has delivered all of these and nothing
else, some of them perhaps several times. -/
namespace BitcoinNode

def Delivers (effects : List Effect) (b : Block) : Prop :=
  ∃ blocks, .sendBlocks blocks ∈ effects ∧ b ∈ blocks

/-- What holds of a block that is delivered. -/
structure Received (segment : List Block) (b : Block) : Prop where
  requested : b ∈ segment
  decoded : b.WellFormed

theorem Delivers.append {effects : List Effect} {b : Block} (delivers : Delivers effects b)
    (more : List Effect) : Delivers (effects ++ more) b := by
  obtain ⟨blocks, sent, member⟩ := delivers
  exact ⟨blocks, List.mem_append_left _ sent, member⟩

theorem BlockMessage.read_from_nil {node : TcpStream} (incoming : node.incoming = []) :
    BlockMessage.readFrom.run node = (Outcome.fail node.failure, node) := by
  simp [readFrom, Proc.run_bind, incoming]

theorem BlockMessage.read_from_cons {node : TcpStream} {payload : List UInt8}
    {rest : List (List UInt8)} (incoming : node.incoming = payload :: rest) :
    BlockMessage.readFrom.run node = (Outcome.mapErr debug (BlockMessage.unmarshalling payload),
      { node with incoming := rest }) := by
  simp [readFrom, Proc.run_bind, incoming]

def TcpStream.serving (b : Block) : TcpStream := ⟨1, [b.marshalling], "", []⟩

theorem read_from_serving {b : Block} (valid : b.WellFormed) (written : List GetDataMessage) :
    BlockMessage.readFrom.run ⟨0, [b.marshalling], "", written⟩ = (.ok b, ⟨0, [], "", written⟩) := by
  rw [BlockMessage.read_from_cons rfl, BlockMessage.unmarshalling_marshalling valid]
  rfl

theorem mem_apply_effects {effects : List Effect} {d : Download} {b : Block} :
    b ∈ (effects.foldl Effect.apply d).rxUtxoSet.flatten ↔
      b ∈ d.rxUtxoSet.flatten ∨ Delivers effects b := by
  induction effects generalizing d with
  | nil => simp [Delivers]
  | cons effect rest ih =>
    rw [List.foldl_cons, ih]
    cases effect <;> simp [Effect.apply, Delivers, or_assoc, or_and_right, exists_or]

theorem keys_apply_effects {effects : List Effect} {d : Download} {hash : Hash} :
    hash ∈ (effects.foldl Effect.apply d).blocks.keys ↔
      hash ∈ d.blocks.keys ∨ ∃ blocks, .storeBlocks blocks ∈ effects ∧ hash ∈ blocks.keys := by
  induction effects generalizing d with
  | nil => simp
  | cons effect rest ih =>
    rw [List.foldl_cons, ih]
    cases effect <;>
      simp [Effect.apply, HashMap.mem_keys_extend, or_assoc, or_and_right, exists_or]

section DownloadRuns

variable [Crates]

/-- The valid blocks that the peer sends are blocks of the segment. -/
def TcpStream.Honest (segment : List Block) (node : TcpStream) : Prop :=
  ∀ payload ∈ node.incoming, ∀ b, BlockMessage.unmarshalling payload = .ok b → b.Accepted → b ∈ segment

def Covered (blocks : HashMap Hash Block) (effects : List Effect) : Prop :=
  ∀ hash ∈ blocks.keys, ∃ b, Delivers effects b ∧ b.hash = hash

/-- A thread that has these blocks and has not stored them yet. -/
structure DownloadThread.Working (segment : List Block) (currentBlocks : HashMap Hash Block)
    (t : DownloadThread) : Prop where
  honest : t.node.Honest segment
  delivered : ∀ b, Delivers t.effects b → Received segment b
  unstored : ∀ blocks, .storeBlocks blocks ∉ t.effects
  covered : Covered currentBlocks t.effects

/-- What a thread may have done when it returns. -/
structure EffectsSound (segment : List Block) (effects : List Effect) : Prop where
  delivered : ∀ b, Delivers effects b → Received segment b
  stored : ∀ blocks, .storeBlocks blocks ∈ effects → Covered blocks effects

variable {segment : List Block} {currentBlocks : HashMap Hash Block}

theorem Covered.append {effects : List Effect} (covered : Covered currentBlocks effects)
    (more : List Effect) : Covered currentBlocks (effects ++ more) := by
  intro hash stored
  obtain ⟨b, delivered, same⟩ := covered hash stored
  exact ⟨b, delivered.append more, same⟩

theorem try_to_download_working (tx : Bool) (headersRead : List BlockHeader) :
    Proc.Triple (·.Working segment currentBlocks)
      (tryToDownloadBlocksFromOtherNode tx headersRead)
      (fun _ t => t.Working segment currentBlocks) (·.Working segment currentBlocks) := by
  cases tx with
  | false => exact .pure fun t working => working
  | true =>
    refine .modify fun t working => ⟨working.honest, ?_, ?_, working.covered.append _⟩
    · rintro b ⟨blocks, sent, member⟩
      exact working.delivered b ⟨blocks, by simpa using sent, member⟩
    · intro blocks stored
      exact working.unstored blocks (by simpa using stored)

theorem give_up_working (tx : Bool) (headersRead : List BlockHeader) (e : NodeCustomErrors)
    (post : α → DownloadThread → Prop) :
    Proc.Triple (·.Working segment currentBlocks) (do
        tryToDownloadBlocksFromOtherNode tx headersRead
        Proc.lift (Outcome.fail e)) post (·.Working segment currentBlocks) :=
  .bind _ (try_to_download_working tx headersRead) fun _ =>
    .lift (fun _ _ failed => nomatch failed) fun _ working => working

theorem request_blocks_working (tx : Bool) (chunk headers : List BlockHeader) :
    Proc.Triple (·.Working segment currentBlocks) (requestBlocksFromNode tx chunk headers)
      (fun _ t => t.Working segment currentBlocks) (·.Working segment currentBlocks) := by
  refine .bind (fun t t' => t = t' ∧ t'.Working segment currentBlocks)
    (.get fun t working => ⟨rfl, working⟩) fun t => ?_
  cases t.node.requests with
  | zero => exact (give_up_working tx headers _ _).strengthen fun _ here => here.2
  | succ requests =>
    refine .modify fun t' here => ?_
    obtain ⟨rfl, working⟩ := here
    exact ⟨working.honest, working.delivered, working.unstored, working.covered⟩

theorem read_from_working : Proc.Triple (·.Working segment currentBlocks)
    (Proc.zoom DownloadThread.node (fun node t => { t with node }) BlockMessage.readFrom)
    (fun b t => (b.Accepted → Received segment b) ∧ t.Working segment currentBlocks)
    (·.Working segment currentBlocks) := by
  intro t working
  rw [Proc.run_zoom]
  cases incoming : t.node.incoming with
  | nil =>
    rw [BlockMessage.read_from_nil incoming]
    exact working
  | cons payload rest =>
    have next : DownloadThread.Working segment currentBlocks
        { t with node := { t.node with incoming := rest } } :=
      ⟨fun payload' member => working.honest payload' (by simp [incoming, member]),
        working.delivered, working.unstored, working.covered⟩
    rw [BlockMessage.read_from_cons incoming]
    rcases decoded : BlockMessage.unmarshalling payload with (e | _ | _) | b
    · exact next
    · exact next
    · exact next
    · refine ⟨fun accepted => ⟨?_, BlockMessage.unmarshalling_wellFormed decoded⟩, next⟩
      exact working.honest payload (by simp [incoming]) b decoded accepted

theorem receive_block_working (tx : Bool) (headers : List BlockHeader) :
    Proc.Triple (·.Working segment currentBlocks) (receiveBlock tx headers)
      (fun b t => Received segment b ∧ t.Working segment currentBlocks)
      (·.Working segment currentBlocks) := by
  refine .bind _ (.attempt read_from_working fun _ working => working) fun block => ?_
  cases block with
  | error err => exact (give_up_working tx headers _ _).strengthen fun _ here => here.2 err rfl
  | ok block =>
    refine .bind (fun result t => (result.1 = true → Received segment block) ∧
        t.Working segment currentBlocks)
      (.lift (fun result t validated here => ⟨fun valid => ?_, (here.1 block rfl).2⟩)
        fun _ here => (here.1 block rfl).2) fun result => ?_
    · apply (here.1 block rfl).1
      refine ⟨result.2, ?_⟩
      rw [← valid]
      exact Outcome.widen_eq_ok.mp validated
    · split_ifs with valid
      · exact .pure fun _ here => ⟨here.1 valid, here.2⟩
      · exact (give_up_working tx headers _ _).strengthen fun _ here => here.2

theorem receive_blocks_working (tx : Bool) (headers : List BlockHeader) (amount : Nat) :
    Proc.Triple (·.Working segment currentBlocks)
      (receiveRequestedBlocksFromNode tx headers amount)
      (fun blocks t => (∀ b ∈ blocks, Received segment b) ∧ t.Working segment currentBlocks)
      (·.Working segment currentBlocks) := by
  induction amount with
  | zero => exact .pure fun _ working => ⟨by simp, working⟩
  | succ amount ih =>
    refine .bind _ (receive_block_working tx headers) fun block t here => ?_
    refine Proc.Triple.bind _ ih (fun blocks => ?_) t here.2
    exact .pure fun _ rest => ⟨by simpa using ⟨here.1, rest.1⟩, rest.2⟩

theorem mem_insert_blocks {blocks : List Block} {hash : Hash} :
    hash ∈ (insertBlocks blocks currentBlocks).keys ↔
      (∃ b ∈ blocks, b.hash = hash) ∨ hash ∈ currentBlocks.keys := by
  induction blocks generalizing currentBlocks with
  | nil => simp [insertBlocks]
  | cons b rest ih =>
    rw [insertBlocks, List.foldl_cons, ← insertBlocks, ih, HashMap.mem_keys_insert]
    simp only [List.mem_cons, exists_eq_or_imp, eq_comm (a := hash), or_assoc]
    exact or_left_comm

theorem deliver_working {blocks : List Block} : Proc.Triple
    (fun t => (∀ b ∈ blocks, Received segment b) ∧ t.Working segment currentBlocks)
    (DownloadThread.perform (.sendBlocks blocks))
    (fun _ t => t.Working segment (insertBlocks blocks currentBlocks)) (fun _ => True) := by
  refine .modify fun t ⟨received, working⟩ => ⟨working.honest, ?_, fun stored => ?_, ?_⟩
  · rintro b ⟨batch, sent, member⟩
    cases List.mem_append.mp sent with
    | inl before => exact working.delivered b ⟨batch, before, member⟩
    | inr now =>
      obtain rfl : batch = blocks := by simpa using now
      exact received b member
  · simpa using working.unstored stored
  · intro hash stored
    rcases mem_insert_blocks.mp stored with ⟨b, member, rfl⟩ | before
    · exact ⟨b, ⟨blocks, by simp, member⟩, rfl⟩
    · exact working.covered.append _ hash before

theorem download_batches_working (blockHeaders : List BlockHeader) (batches : List (List BlockHeader)) :
    Proc.Triple (·.Working segment currentBlocks)
      (downloadBatches blockHeaders batches currentBlocks)
      (fun downloaded t => ∃ blocks, t.Working segment blocks ∧ ∀ b ∈ downloaded, b = blocks)
      (fun _ => True) := by
  induction batches generalizing currentBlocks with
  | nil => exact .pure fun _ working => ⟨_, working, fun _ same => (Option.some.inj same).symm⟩
  | cons batch rest ih =>
    refine .bind _ (.attempt (request_blocks_working true batch blockHeaders) fun _ _ => trivial)
      fun requested => ?_
    split
    · exact .pure fun _ here => ⟨_, here.2 _ rfl, fun _ same => nomatch same⟩
    · exact .lift (fun _ _ failed => nomatch failed) fun _ _ => trivial
    · refine Proc.Triple.strengthen ?_ fun _ here => here.1 _ rfl
      refine .bind _ (.attempt (receive_blocks_working true blockHeaders batch.length)
        fun _ _ => trivial) fun received => ?_
      split
      · exact .pure fun _ here => ⟨_, here.2 _ rfl, fun _ same => nomatch same⟩
      · exact .lift (fun _ _ failed => nomatch failed) fun _ _ => trivial
      · exact .bind _ (deliver_working.strengthen fun _ here => here.1 _ rfl) fun _ => ih

/-- A thread with an honest peer that returns has delivered blocks of the segment only, and all
the blocks it stored. -/
theorem thread_run_sound {config : Config} {job : List BlockHeader × TcpStream}
    (honest : job.2.Honest segment) (returned : (config.threadRun job).1 = .ok ()) :
    EffectsSound segment (config.threadRun job).2.effects := by
  have start : DownloadThread.Working segment ∅ ⟨job.2, []⟩ :=
    ⟨honest, by simp [Delivers], by simp, by simp [Covered]⟩
  have body : Proc.Triple (·.Working segment ∅) (downloadBlocksSingleThread config job.1)
      (fun _ t => EffectsSound segment t.effects) (fun _ => True) := by
    refine .bind (fun _ t => t.Working segment ∅) (.lift (fun _ _ _ working => working)
      fun _ _ => trivial) fun batches => .bind _ (download_batches_working job.1 batches)
      fun downloaded => ?_
    cases downloaded with
    | none =>
      refine .pure fun t ⟨_, working, _⟩ => ⟨working.delivered, fun blocks stored => ?_⟩
      exact absurd stored (working.unstored blocks)
    | some currentBlocks =>
      refine .modify fun t ⟨_, working, same⟩ => ⟨?_, fun blocks stored => ?_⟩
      · rintro b ⟨batch, sent, member⟩
        exact working.delivered b ⟨batch, by simpa using sent, member⟩
      · obtain rfl := same currentBlocks rfl
        have here : blocks = currentBlocks := by simpa [working.unstored] using stored
        subst here
        exact working.covered.append _
  exact body.returns start returned

/-- Only blocks of the segment are delivered, and only what was delivered is stored. -/
structure Download.Sound (segment : List Block) (d : Download) : Prop where
  delivered : ∀ b ∈ d.rxUtxoSet.flatten, Received segment b
  stored : ∀ hash ∈ d.blocks.keys, ∃ b ∈ d.rxUtxoSet.flatten, b.hash = hash

theorem Download.Sound.apply_effects {d : Download} (sound : d.Sound segment)
    {effects : List Effect} (effectsSound : EffectsSound segment effects) :
    (effects.foldl Effect.apply d).Sound segment := by
  constructor
  case delivered =>
    intro b member
    cases mem_apply_effects.mp member with
    | inl before => exact sound.delivered b before
    | inr now => exact effectsSound.delivered b now
  case stored =>
    intro hash member
    cases keys_apply_effects.mp member with
    | inl before =>
      obtain ⟨b, delivered, same⟩ := sound.stored hash before
      exact ⟨b, mem_apply_effects.mpr (.inl delivered), same⟩
    | inr now =>
      obtain ⟨blocks, stored, inside⟩ := now
      obtain ⟨b, delivered, same⟩ := effectsSound.stored blocks stored hash inside
      exact ⟨b, mem_apply_effects.mpr (.inr delivered), same⟩

theorem EffectsSound.interleave {parts : List (List Effect)} {merged : List Effect}
    (interleaved : Interleaving parts merged) (sound : ∀ part ∈ parts, EffectsSound segment part) :
    EffectsSound segment merged := by
  constructor
  case delivered =>
    rintro b ⟨batch, sent, member⟩
    obtain ⟨part, listed, here⟩ := interleaved.mem_iff.mp sent
    exact (sound part listed).delivered b ⟨batch, here, member⟩
  case stored =>
    intro blocks stored hash inside
    obtain ⟨part, listed, here⟩ := interleaved.mem_iff.mp stored
    obtain ⟨b, ⟨batch, sent, member⟩, same⟩ := (sound part listed).stored blocks here hash inside
    exact ⟨b, ⟨batch, interleaved.mem_iff.mpr ⟨part, listed, sent⟩, member⟩, same⟩

theorem EffectsSound.of_headers {effects : List Effect}
    (announces : ∀ effect ∈ effects, effect.OfHeaders) : EffectsSound segment effects :=
  ⟨fun _ ⟨_, sent, _⟩ => absurd (announces _ sent) id, fun _ stored => absurd (announces _ stored) id⟩

theorem Download.Sound.step {config : Config} {d d' : Download} (sound : d.Sound segment)
    (step : Download.Step config (TcpStream.Honest segment) d d') : d'.Sound segment := by
  cases step with
  | @headers effect announces =>
    have alone : EffectsSound segment [effect] := .of_headers (by simpa using announces)
    exact sound.apply_effects alone
  | @round blocksToDownload rx jobs announced merged _ _ _ connected returned announces interleaved =>
    have start : Download.Sound segment { d with rx } := ⟨sound.delivered, sound.stored⟩
    apply start.apply_effects
    apply EffectsSound.interleave interleaved
    intro part listed
    rcases List.mem_cons.mp listed with rfl | thread
    · exact .of_headers announces
    · obtain ⟨job, member, rfl⟩ := List.mem_map.mp thread
      exact thread_run_sound (connected job member) (returned job member)

/-- A run of the download from nothing but the stored headers. -/
def Download.Run (config : Config) (peers : TcpStream → Prop) (headers : List BlockHeader) :
    Download → Prop :=
  Relation.ReflTransGen (Download.Step config peers) ⟨headers, [], [], ∅⟩

theorem Download.Run.sound {config : Config} {headers : List BlockHeader} {d : Download}
    (run : Download.Run config (TcpStream.Honest segment) headers d) : d.Sound segment := by
  induction run with
  | refl => exact ⟨by simp, by simp⟩
  | tail _ step ih => exact ih.step step

theorem Download.Sound.complete {config : Config} {d : Download} (sound : d.Sound segment)
    (complete : d.Complete config)
    (segmentOf : segment.map Block.blockHeader =
      d.headers.drop config.heightFirstBlockToDownload) :
    ∀ b ∈ segment, b ∈ d.rxUtxoSet.flatten := by
  have length : d.blocks.keys.card = (segment.map Block.hash).length := by
    have same := congrArg List.length segmentOf
    rw [List.length_map, List.length_drop] at same
    rw [Download.Complete, HashMap.len] at complete
    rw [List.length_map]
    omega
  have inside : d.blocks.keys ⊆ (segment.map Block.hash).toFinset := by
    intro hash stored
    obtain ⟨b, delivered, rfl⟩ := sound.stored hash stored
    exact List.mem_toFinset.mpr (List.mem_map_of_mem (sound.delivered b delivered).requested)
  have bound := List.toFinset_card_le (segment.map Block.hash)
  have all := Finset.eq_of_subset_of_card_le inside (by omega)
  have counted : (segment.map Block.hash).toFinset.card = (segment.map Block.hash).length :=
    all ▸ length
  have distinct : (segment.map Block.hash).Nodup :=
    Multiset.coe_nodup.mp (Multiset.toFinset_card_eq_card_iff_nodup.mp counted)
  intro b member
  obtain ⟨b', delivered, same⟩ := sound.stored b.hash
    (by rw [all]; exact List.mem_toFinset.mpr (List.mem_map_of_mem member))
  have requested := (sound.delivered b' delivered).requested
  rwa [← List.inj_on_of_nodup_map distinct requested member same]

def served (b : Block) : List Effect :=
  [.sendBlocks [b], .storeBlocks ((∅ : HashMap Hash Block).insert b.hash b)]

theorem serving_honest {segment : List Block} {b : Block} (valid : b.WellFormed)
    (listed : b ∈ segment) : (TcpStream.serving b).Honest segment := by
  intro payload member b' decoded _
  rw [List.mem_singleton.mp member, BlockMessage.unmarshalling_marshalling valid] at decoded
  rwa [← Except.ok.inj decoded]

theorem thread_run_serving {b : Block} (valid : b.WellFormed) (accepted : b.Accepted)
    (nThreads height : Nat) (header : BlockHeader) :
    let run := Config.threadRun ⟨nThreads, 1, height⟩ ([header], .serving b)
    run.1 = .ok () ∧ run.2.effects = served b := by
  obtain ⟨text, validated⟩ := accepted
  simp [Config.threadRun, downloadBlocksSingleThread, chunks, downloadBatches, Proc.run_bind,
    Proc.attempt, requestBlocksFromNode, TcpStream.serving, receiveRequestedBlocksFromNode,
    receiveBlock, read_from_serving valid, validated, Outcome.attempt, DownloadThread.perform, insertBlocks, served]

end DownloadRuns

end BitcoinNode
