import BitcoinNode.HeadersFile

/-! Batches that the download of the headers rejects. They are not stored, but their heights were loaded
before anything was checked, and nothing takes these heights back. -/
namespace BitcoinNode

section RejectedBatches

variable [Crates]

/-- The three places where the download asks its node for a batch. -/
inductive AsksForHeaders (config : HeadersConfig) (s : HeadersDownload) : DownloadingHeaders Unit → Prop where
  | initial (rounds : Nat) (wanted : s.blockchain.headers.length < config.headersInDisk) :
    AsksForHeaders config s (initialHeadersLoop config (rounds + 1))
  | first [Chrono] : AsksForHeaders config s (downloadMissingHeadersFromNode config)
  | later [Chrono] (rounds : Nat) (headersRead : List BlockHeader) (full : headersRead.length = 2000)
      (firstBlockFound : Bool) :
    AsksForHeaders config s (missingHeadersLoop config (rounds + 1) headersRead firstBlockFound)

/-- The next batch can be asked for, and the node sends this one. -/
structure HeadersDownload.Receiving (s : HeadersDownload) (offer : Offer) : Prop where
  stored : s.blockchain.headers ≠ []
  next : s.node.offers.head? = some offer

/-- The heights of the batch are there: of the headers with one hash, the last one counts. -/
def Blockchain.Knows (chain : Blockchain) (headersRead : List BlockHeader) : Prop :=
  ∀ hash i, LastAt (headersRead.map BlockHeader.hash) hash i →
    chain.headerHeights.get hash = some (chain.headers.length + i)

theorem load_header_heights_eq_iff {chain : Blockchain} {headersRead : List BlockHeader} :
    (loadHeaderHeights headersRead chain).headerHeights = chain.headerHeights ↔ chain.Knows headersRead := by
  constructor
  · intro same hash i last
    rcases load_header_heights_get chain headersRead hash with ⟨_, absent⟩ | ⟨i', last', found⟩
    · exact absurd last.mem absent
    · rw [← same, found, last.unique last']
  · intro knows
    refine HashMap.ext_get fun hash => ?_
    rcases load_header_heights_get chain headersRead hash with ⟨same, _⟩ | ⟨i, last, found⟩
    · exact same
    · rw [found, knows hash i last]

variable {config : HeadersConfig} {s : HeadersDownload} {round : DownloadingHeaders Unit} {offer : Offer}

theorem AsksForHeaders.rejected (asks : AsksForHeaders config s round) (receiving : s.Receiving offer)
    {e : Failure NodeCustomErrors} (rejected : validateHeaders offer.headersRead = .error e) :
    (round.run s).1 = .error e ∧ (round.run s).2.blockchain = offer.apply s.blockchain := by
  obtain ⟨rest, next⟩ := List.head?_eq_some_iff.mp receiving.next
  have fails {receive : DownloadingHeaders (List BlockHeader)} {write : List UInt8 → List UInt8 → List UInt8}
      (receives : Receives receive write) (k : List BlockHeader → DownloadingHeaders Unit) :
      ((nextHeaders config receive >>= k).run s).1 = .error e ∧
        ((nextHeaders config receive >>= k).run s).2.blockchain = offer.apply s.blockchain := by
    obtain ⟨node, _, _, ran⟩ := next_headers_offer config receives receiving.stored next
    rw [rejected] at ran
    rw [Proc.run_bind_error _ ran]
    exact ⟨rfl, rfl⟩
  cases asks with
  | initial rounds wanted =>
    rw [initialHeadersLoop, Proc.run_bind_ok _ (Proc.run_get s), if_pos wanted]
    exact fails (or_download_error_receives _ _) _
  | first =>
    rw [downloadMissingHeadersFromNode, Proc.run_bind_ok _ (Proc.run_get s)]
    exact fails (or_download_error_receives _ _) _
  | later rounds headersRead full firstBlockFound =>
    rw [missingHeadersLoop, if_pos full]
    exact fails (or_download_error_receives _ _) _

/-- The chain is as before exactly when the rejected headers had these heights already. -/
theorem rejected_batch_leaves_no_trace_iff (asks : AsksForHeaders config s round) (receiving : s.Receiving offer)
    {err : NodeCustomErrors} (rejected : ((storeHeadersInLocalHeadersVec offer.headersRead).run
      s.blockchain.headers).1 = Outcome.fail err) :
    (round.run s).2.blockchain.headers = s.blockchain.headers ∧
        (round.run s).2.blockchain.headerHeights = s.blockchain.headerHeights ↔
      s.blockchain.Knows offer.headersRead := by
  have invalid : validateHeaders offer.headersRead = Outcome.fail err := by
    rw [storeHeadersInLocalHeadersVec, Proc.run_bind, Proc.run_lift] at rejected
    rcases validated : validateHeaders offer.headersRead with e | _ <;> rw [validated] at rejected
    · exact rejected
    · cases rejected
  obtain ⟨_, chain⟩ := asks.rejected receiving invalid
  rw [chain, ← load_header_heights_eq_iff]
  simp [Offer.apply, invalid, Outcome.fail, loadHeaderHeights]

end RejectedBatches

def BlockHeader.hard : BlockHeader := ⟨1, U8Array.replicate 32 0, U8Array.replicate 32 0, 1, 0x1d00ffff, 0⟩

def HeadersDownload.connected (chain : Blockchain) (header : BlockHeader) : HeadersDownload :=
  ⟨[], ⟨1, [announcement header], "", []⟩, chain, ⟨0, []⟩, []⟩

theorem HeadersDownload.connected_hard {chain : Blockchain} (stored : chain.headers ≠ []) :
    (connected chain .hard).Receiving ⟨announcement .hard, [.hard]⟩ := by
  have decoded : HeadersMessage.unmarshalling (announcement .hard) 0 = .ok ([.hard], 82) := by decide +kernel
  refine ⟨stored, ?_⟩
  rw [HeadersStream.offers, connected, List.take_succ_cons, offers, decoded]
  rfl

/-- The height of the rejected header is left behind. -/
theorem rejected_batch_leaves_height :
    let _ := Crates.standard
    let s := HeadersDownload.connected .initial .hard
    let round := initialHeadersLoop ⟨70015, 2, "", ""⟩ 1
    s.Receiving ⟨announcement .hard, [.hard]⟩ ∧
      ((storeHeadersInLocalHeadersVec [.hard]).run s.blockchain.headers).1 =
        Outcome.fail (.InvalidHeaderError "partial validation of header is invalid!") ∧
      s.blockchain.headerHeights.get BlockHeader.hard.hash = none ∧
      (round.run s).2.blockchain.headerHeights.get BlockHeader.hard.hash = some 1 ∧
      ¬((round.run s).2.blockchain.headers = s.blockchain.headers ∧
        (round.run s).2.blockchain.headerHeights = s.blockchain.headerHeights) := by
  intro _ s round
  obtain ⟨rejected, before, after⟩ : ((storeHeadersInLocalHeadersVec [.hard]).run s.blockchain.headers).1 =
        Outcome.fail (.InvalidHeaderError "partial validation of header is invalid!") ∧
      s.blockchain.headerHeights.get BlockHeader.hard.hash = none ∧
      (round.run s).2.blockchain.headerHeights.get BlockHeader.hard.hash = some 1 := by decide +kernel
  refine ⟨HeadersDownload.connected_hard (by decide), rejected, before, after, fun ⟨_, same⟩ => ?_⟩
  rw [same, before] at after
  cases after

/-- Where the height is there already, nothing is left behind. -/
theorem rejected_batch_leaves_no_trace_again :
    let _ := Crates.standard
    let s := HeadersDownload.connected (loadHeaderHeights [.hard] .initial) .hard
    let round := initialHeadersLoop ⟨70015, 2, "", ""⟩ 1
    (round.run s).2.blockchain.headers = s.blockchain.headers ∧
        (round.run s).2.blockchain.headerHeights = s.blockchain.headerHeights ↔
      s.blockchain.Knows [.hard] := by
  intro _ s round
  exact rejected_batch_leaves_no_trace_iff (.initial 0 (by decide)) (HeadersDownload.connected_hard (by decide))
    (show _ = Outcome.fail (.InvalidHeaderError "partial validation of header is invalid!") by decide +kernel)

end BitcoinNode
