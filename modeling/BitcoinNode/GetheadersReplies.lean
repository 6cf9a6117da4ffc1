import BitcoinNode.GetdataReplies
import BitcoinNode.HeadersDownload
import BitcoinNode.HeightIndex

/-! Replies to getheaders messages. Only the first locator hash is looked up, and a hash that is not found
stands for the genesis block, as a stop hash too. -/
namespace BitcoinNode

open Decoder

/-- What stands after the stop hash is not looked at. -/
def GetHeadersPayload.readFrom : Decoder String GetHeadersPayload := do
  let version ← array 4
  let hashCount ← CompactSizeUint.unmarshalling
  let amount ← lift hashCount.decodedValue
  let locatorHashes ← replicate amount (array 32)
  let stopHash ← array 32
  return ⟨u32FromLeBytes version, hashCount, locatorHashes, stopHash⟩

/-- The announced number of locator hashes is there. -/
def GetHeadersPayload.WellFormed (p : GetHeadersPayload) : Prop := p.hashCount.Counts p.locatorHashes.length

theorem GetHeadersPayload.read_from_reads {p : GetHeadersPayload} (valid : p.WellFormed) :
    Reads readFrom p.toLeBytes p := by
  obtain ⟨version, hashCount, locatorHashes, stopHash⟩ := p
  simp only [toLeBytes, List.append_assoc]
  refine .bind (.array ⟨u32ToLeBytes version, by simp⟩) (.bind (CompactSizeUint.unmarshalling_reads valid.1)
    (.lift valid.2 (.bind (.replicate locatorHashes fun hash _ => .array hash) (.map (.array stopHash) ?_))))
  rw [u32_from_to]
  exact .pure _

theorem GetHeadersPayload.read_from_to_le_bytes {p : GetHeadersPayload} (valid : p.WellFormed) :
    ∃ stop, readFrom p.toLeBytes 0 = .ok (p, stop) :=
  ⟨_, by simpa using read_from_reads valid [] []⟩

/-- `&xs[start..stop]` -/
def getRange (xs : List α) (start stop : Nat) : Checked (List α) :=
  if start ≤ stop ∧ stop ≤ xs.length then .ok (slice xs start stop) else Outcome.panic

section Getheaders

variable [Crates]

def HeadersMessage.marshalling (headers : List BlockHeader) : Checked (List UInt8) :=
  framed ("headers", headersMessagePayload headers)

/-- Zero if the hash is not found. -/
def getIndexOfHeader (headerHash : Hash) (chain : Blockchain) : Nat :=
  if headerHash = genesisBlockHash then 0 else (chain.headerHeights.get headerHash).getD 0

def handleGetheadersMessage (payload : List UInt8) : Proc PeerState NodeCustomErrors Unit := do
  let (getheadersPayload, _) ← Proc.lift
    (Outcome.mapErr .UnmarshallingError (GetHeadersPayload.readFrom payload 0))
  let firstHeaderAsked ← Proc.lift (Outcome.index getheadersPayload.locatorHashes 0)
  let s ← Proc.get
  let chain := s.node.blockchain
  let amountOfHeaders := chain.headers.length
  let indexOfFirstHeaderAsked := getIndexOfHeader firstHeaderAsked chain + 1
  let headersToSend ← Proc.lift (Outcome.widen (
    if getheadersPayload.stopHash = U8Array.replicate 32 0 then
      if amountOfHeaders ≤ indexOfFirstHeaderAsked + 2000 then
        getRange chain.headers indexOfFirstHeaderAsked chain.headers.length
      else getRange chain.headers indexOfFirstHeaderAsked (indexOfFirstHeaderAsked + 2000)
    else
      let indexOfStopHash := getIndexOfHeader getheadersPayload.stopHash chain
      getRange chain.headers indexOfFirstHeaderAsked indexOfStopHash))
  let message ← Proc.lift (HeadersMessage.marshalling headersToSend).widen
  writeToNode message

namespace Blockchain

variable (chain : Blockchain)

def At (hash : Hash) (k : Nat) : Prop := ∃ header, chain.headers[k]? = some header ∧ header.hash = hash

/-- The position of the first locator hash that belongs to the chain, or zero. -/
def StartsAt : (locatorHashes : List Hash) → Nat → Prop
  | [], k => k = 0
  | hash :: locatorHashes, k => chain.At hash k ∨ (∀ j, ¬chain.At hash j) ∧ StartsAt locatorHashes k

/-- The stop hash belongs to the header at position `p`, after position `k`. -/
def StopsAt (stopHash : Hash) (k p : Nat) : Prop :=
  stopHash ≠ U8Array.replicate 32 0 ∧ k < p ∧ chain.At stopHash p

/-- Where the reply to a request that starts at position `k` ends: after two thousand headers, and at
the stop header, which may be sent or not. -/
def EndsAt (stopHash : Hash) (k e : Nat) : Prop :=
  (∃ p, chain.StopsAt stopHash k p ∧ (e = min (k + 2001) p ∨ e = min (k + 2001) (p + 1))) ∨
    (∀ p, ¬chain.StopsAt stopHash k p) ∧ e = min (k + 2001) chain.headers.length

end Blockchain

/-- The handler returns, and has sent one headers message: the headers that are asked for. -/
def GetheadersAnswered (s : PeerState) (p : GetHeadersPayload) : Prop :=
  ∃ k e payload stop message, s.node.blockchain.StartsAt p.locatorHashes k ∧
    s.node.blockchain.EndsAt p.stopHash k e ∧
    HeadersMessage.unmarshalling payload 0 = .ok (slice s.node.blockchain.headers (k + 1) e, stop) ∧
    framed ("headers", payload) = .ok message ∧
    (handleGetheadersMessage p.toLeBytes).run s =
      (.ok (), { s with tx := { s.tx with sent := s.tx.sent ++ [message] } })

/-- Looking up the first locator hash gives the start, and looking up the stop hash gives the end. -/
inductive Blockchain.Lookups (chain : Blockchain) (firstHeaderAsked stopHash : Hash) (k : Nat) : Prop where
  | unlimited (start : getIndexOfHeader firstHeaderAsked chain = k) (stored : k < chain.headers.length)
      (none : stopHash = U8Array.replicate 32 0)
  | limited (start : getIndexOfHeader firstHeaderAsked chain = k)
      (stop : chain.StopsAt stopHash k (getIndexOfHeader stopHash chain))
      (near : getIndexOfHeader stopHash chain ≤ k + 2001)
  /-- The stop hash is of a header that is not stored, with a height for the end of the reply. -/
  | unstored (start : getIndexOfHeader firstHeaderAsked chain = k) (stored : k < chain.headers.length)
      (unknown : ∀ p, ¬chain.StopsAt stopHash k p)
      (height : getIndexOfHeader stopHash chain = min (k + 2001) chain.headers.length)
  /-- Nothing is asked for, and nothing is sent: both hashes are taken for others. -/
  | nothing (tip : chain.headers.length = k + 1) (some : stopHash ≠ U8Array.replicate 32 0)
      (unknown : ∀ p, ¬chain.StopsAt stopHash k p)
      (empty : getIndexOfHeader stopHash chain = getIndexOfHeader firstHeaderAsked chain + 1)
      (inside : getIndexOfHeader firstHeaderAsked chain ≤ k)

def Blockchain.sliceEnd (chain : Blockchain) (firstHeaderAsked stopHash : Hash) : Nat :=
  if stopHash = U8Array.replicate 32 0 then
    min (getIndexOfHeader firstHeaderAsked chain + 2001) chain.headers.length
  else getIndexOfHeader stopHash chain

variable {s : PeerState} {p : GetHeadersPayload} {firstHeaderAsked : Hash} {others : List Hash}

theorem handle_getheaders_message_run (valid : p.WellFormed)
    (asked : p.locatorHashes = firstHeaderAsked :: others) :
    (handleGetheadersMessage p.toLeBytes).run s = (do
      let headersToSend ← Proc.lift (Outcome.widen (getRange s.node.blockchain.headers
        (getIndexOfHeader firstHeaderAsked s.node.blockchain + 1)
        (s.node.blockchain.sliceEnd firstHeaderAsked p.stopHash)))
      let message ← Proc.lift (HeadersMessage.marshalling headersToSend).widen
      writeToNode message).run s := by
  obtain ⟨stop, read⟩ := GetHeadersPayload.read_from_to_le_bytes valid
  have first : (Outcome.index p.locatorHashes 0 : Outcome NodeCustomErrors Hash) = .ok firstHeaderAsked := by
    rw [asked]
    rfl
  rw [handleGetheadersMessage, read, Outcome.mapErr_ok, Proc.run_bind_ok _ (Proc.run_lift _ _)]
  simp only
  rw [first, Proc.run_bind_ok _ (Proc.run_lift _ _), Proc.run_bind_ok _ (Proc.run_get s), Blockchain.sliceEnd]
  split_ifs with none short
  · rw [Nat.min_eq_right (by omega)]
  · rw [Nat.min_eq_left (by omega)]
  · rfl

theorem handle_getheaders_message_sends (valid : p.WellFormed)
    (asked : p.locatorHashes = firstHeaderAsked :: others) (s' : PeerState) :
    (handleGetheadersMessage p.toLeBytes).run s = (.ok (), s') ↔ s.tx.open_ = true ∧
      getIndexOfHeader firstHeaderAsked s.node.blockchain + 1 ≤
        s.node.blockchain.sliceEnd firstHeaderAsked p.stopHash ∧
      s.node.blockchain.sliceEnd firstHeaderAsked p.stopHash ≤ s.node.blockchain.headers.length ∧
      ∃ message, HeadersMessage.marshalling (slice s.node.blockchain.headers
          (getIndexOfHeader firstHeaderAsked s.node.blockchain + 1)
          (s.node.blockchain.sliceEnd firstHeaderAsked p.stopHash)) = .ok message ∧
        s' = { s with tx := { s.tx with sent := s.tx.sent ++ [message] } } := by
  rw [handle_getheaders_message_run valid asked, getRange]
  by_cases inside : getIndexOfHeader firstHeaderAsked s.node.blockchain + 1 ≤
      s.node.blockchain.sliceEnd firstHeaderAsked p.stopHash ∧
    s.node.blockchain.sliceEnd firstHeaderAsked p.stopHash ≤ s.node.blockchain.headers.length
  · have fits : "headers".toUTF8.toList.length ≤ 12 := by decide +kernel
    obtain ⟨header, framed⟩ := @framed_shape _ ("headers", headersMessagePayload
      (slice s.node.blockchain.headers (getIndexOfHeader firstHeaderAsked s.node.blockchain + 1)
        (s.node.blockchain.sliceEnd firstHeaderAsked p.stopHash))) fits
    rw [if_pos inside, Outcome.widen_ok, Proc.run_bind_ok _ (Proc.run_lift _ _), HeadersMessage.marshalling, framed,
      Outcome.widen_ok, Proc.run_bind_ok _ (Proc.run_lift _ _), writeToNode, Proc.run_zoom, NodeSender.send,
      Proc.run_bind_ok _ (Proc.run_get _)]
    cases channel : s.tx.open_ with
    | false => simp [Outcome.fail]
    | true => simp [inside, eq_comm]
  · rw [if_neg inside]
    constructor
    · rintro ran
      cases (Prod.mk.inj ran).1
    · rintro ⟨_, after, before, _⟩
      exact absurd ⟨after, before⟩ inside

theorem Blockchain.StartsAt.bound {chain : Blockchain} {locatorHashes : List Hash} {k : Nat}
    (start : chain.StartsAt locatorHashes k) : k = 0 ∨ k < chain.headers.length := by
  induction locatorHashes with
  | nil => exact .inl start
  | cons hash locatorHashes ih =>
    rcases start with ⟨_, stored, _⟩ | ⟨_, start⟩
    · exact .inr (List.getElem?_eq_some_iff.mp stored).1
    · exact ih start

theorem Blockchain.EndsAt.bound {chain : Blockchain} {stopHash : Hash} {k e : Nat}
    (ends : chain.EndsAt stopHash k e) : e ≤ chain.headers.length := by
  rcases ends with ⟨p, ⟨_, _, _, stored, _⟩, rfl | rfl⟩ | ⟨_, rfl⟩
  · have := (List.getElem?_eq_some_iff.mp stored).1
    omega
  · have := (List.getElem?_eq_some_iff.mp stored).1
    omega
  · exact Nat.min_le_right _ _

/-- Slices that are not empty are the same only at the same place. -/
theorem Blockchain.Indexed.slice_inj {chain : Blockchain} (indexed : chain.Indexed) {i t k e : Nat}
    (some : i + 1 < t) (bound : t ≤ chain.headers.length) (bound' : e ≤ chain.headers.length)
    (same : slice chain.headers (i + 1) t = slice chain.headers (k + 1) e) : i = k ∧ t = e := by
  have length := congrArg List.length same
  rw [slice_length _ _ _ bound, slice_length _ _ _ bound'] at length
  have first := congrArg (·[0]?) same
  simp only [slice, List.getElem?_take, List.getElem?_drop, Nat.add_zero] at first
  rw [if_pos (by omega), if_pos (by omega)] at first
  obtain ⟨header, stored⟩ : ∃ header, chain.headers[i + 1]? = .some header :=
    ⟨_, List.getElem?_eq_getElem (by omega)⟩
  have here := indexed (i + 1) (by omega) header stored
  have there := indexed (k + 1) (by omega) header (first ▸ stored)
  have := Option.some.inj (here.symm.trans there)
  omega

/-- A header after the first is looked up at its position, unless it is taken for the genesis block. -/
theorem Blockchain.Indexed.index_of_stop {chain : Blockchain} (indexed : chain.Indexed) {stopHash : Hash} {k p : Nat}
    (stop : chain.StopsAt stopHash k p) :
    getIndexOfHeader stopHash chain = 0 ∨ getIndexOfHeader stopHash chain = p := by
  obtain ⟨_, later, header, stored, rfl⟩ := stop
  rw [getIndexOfHeader, indexed p (by omega) header stored]
  split_ifs
  · exact .inl rfl
  · exact .inr rfl

/-- The slice that the handler takes is one that is asked for. -/
def Blockchain.Fits (chain : Blockchain) (firstHeaderAsked stopHash : Hash) (k e : Nat) : Prop :=
  getIndexOfHeader firstHeaderAsked chain + 1 ≤ chain.sliceEnd firstHeaderAsked stopHash ∧
    chain.sliceEnd firstHeaderAsked stopHash ≤ chain.headers.length ∧
    slice chain.headers (getIndexOfHeader firstHeaderAsked chain + 1)
      (chain.sliceEnd firstHeaderAsked stopHash) = slice chain.headers (k + 1) e

theorem Blockchain.Indexed.lookups_of_fits {chain : Blockchain} (indexed : chain.Indexed) {stopHash : Hash}
    {k e : Nat} (start : k = 0 ∨ k < chain.headers.length) (ends : chain.EndsAt stopHash k e)
    (fits : chain.Fits firstHeaderAsked stopHash k e) : chain.Lookups firstHeaderAsked stopHash k := by
  obtain ⟨after, inside, same⟩ := fits
  have bound := ends.bound
  -- a slice with something in it is at its place, and an empty one is not longer than the other
  have place := fun more => indexed.slice_inj more inside bound same
  have length := congrArg List.length same
  rw [slice_length _ _ _ inside, slice_length _ _ _ bound] at length
  by_cases none : stopHash = U8Array.replicate 32 0
  · rw [sliceEnd, if_pos none] at after inside length place
    obtain ⟨_, ⟨some, _⟩, _⟩ | ⟨_, rfl⟩ := ends
    · exact absurd none some
    · have position : getIndexOfHeader firstHeaderAsked chain = k := by
        by_cases more : getIndexOfHeader firstHeaderAsked chain + 1 <
            min (getIndexOfHeader firstHeaderAsked chain + 2001) chain.headers.length
        · exact (place more).1
        · omega
      exact .unlimited position (by omega) none
  · rw [sliceEnd, if_neg none] at after inside length place
    obtain ⟨p, stop, ends⟩ | ⟨unknown, rfl⟩ := ends
    · have lookup := indexed.index_of_stop stop
      have later := stop.2.1
      obtain rfl : getIndexOfHeader stopHash chain = p := by omega
      have position : getIndexOfHeader firstHeaderAsked chain = k := by
        by_cases more : getIndexOfHeader firstHeaderAsked chain + 1 < getIndexOfHeader stopHash chain
        · exact (place more).1
        · omega
      have near : getIndexOfHeader stopHash chain ≤ k + 2001 := by
        by_cases more : getIndexOfHeader firstHeaderAsked chain + 1 < getIndexOfHeader stopHash chain
        · have := (place more).2
          omega
        · omega
      exact .limited position stop near
    · by_cases more : getIndexOfHeader firstHeaderAsked chain + 1 < getIndexOfHeader stopHash chain
      · obtain ⟨position, height⟩ := place more
        exact .unstored position (by omega) unknown height
      · exact .nothing (by omega) none unknown (by omega) (by omega)

theorem Blockchain.Lookups.fits {chain : Blockchain} {stopHash : Hash} {k : Nat}
    (lookups : chain.Lookups firstHeaderAsked stopHash k) :
    ∃ e, chain.EndsAt stopHash k e ∧ chain.Fits firstHeaderAsked stopHash k e := by
  cases lookups with
  | unlimited start stored none =>
    refine ⟨_, .inr ⟨fun p stop => stop.1 none, rfl⟩, ?_⟩
    rw [Fits, sliceEnd, if_pos none, start]
    exact ⟨by omega, Nat.min_le_right _ _, rfl⟩
  | limited start stop near =>
    obtain ⟨some, later, header, stored, _⟩ := stop
    refine ⟨_, .inl ⟨_, ⟨some, later, header, stored, ‹_›⟩, .inl (Nat.min_eq_right near).symm⟩, ?_⟩
    rw [Fits, sliceEnd, if_neg some, start]
    exact ⟨later, Nat.le_of_lt (List.getElem?_eq_some_iff.mp stored).1, rfl⟩
  | unstored start stored unknown height =>
    refine ⟨_, .inr ⟨unknown, rfl⟩, ?_⟩
    rw [Fits, sliceEnd, start, height, ite_self]
    exact ⟨by omega, Nat.min_le_right _ _, rfl⟩
  | nothing tip some unknown empty inside =>
    refine ⟨k + 1, .inr ⟨unknown, by omega⟩, ?_⟩
    rw [Fits, sliceEnd, if_neg some, empty, slice_self, slice_self]
    exact ⟨by omega, by omega, rfl⟩

/-- A stop hash of a header that is not there, or only before the start, makes the handler panic, and the
other locator hashes are not looked at. -/
theorem handle_getheaders_message_answered_iff (indexed : s.node.blockchain.Indexed)
    (fits : s.node.blockchain.headers.length < 2 ^ 64) (valid : p.WellFormed)
    (asked : p.locatorHashes = firstHeaderAsked :: others) :
    GetheadersAnswered s p ↔ s.tx.open_ = true ∧ ∃ k, s.node.blockchain.StartsAt p.locatorHashes k ∧
      s.node.blockchain.Lookups firstHeaderAsked p.stopHash k := by
  have decodes (start stop : Nat) : ∃ i, HeadersMessage.unmarshalling
      (headersMessagePayload (slice s.node.blockchain.headers start stop)) 0 =
        .ok (slice s.node.blockchain.headers start stop, i) := by
    refine HeadersMessage.unmarshalling_payload (Nat.lt_of_le_of_lt ?_ fits)
    simp only [slice, List.length_take, List.length_drop]
    omega
  have name : "headers".toUTF8.toList.length ≤ 12 := by decide +kernel
  constructor
  · rintro ⟨k, e, payload, stop, message, start, ends, decoded, written, ran⟩
    obtain ⟨channel, after, inside, message', written', same⟩ :=
      (handle_getheaders_message_sends valid asked _).mp ran
    obtain rfl : message = message' := by simpa using congrArg (·.tx.sent) same
    -- the message is the only one with this payload
    obtain ⟨header, shape⟩ := @framed_shape _ ("headers", payload) name
    obtain ⟨header', shape'⟩ := @framed_shape _ ("headers", headersMessagePayload
      (slice s.node.blockchain.headers (getIndexOfHeader firstHeaderAsked s.node.blockchain + 1)
        (s.node.blockchain.sliceEnd firstHeaderAsked p.stopHash))) name
    have bytes := Except.ok.inj ((shape'.symm.trans written').trans (written.symm.trans shape))
    obtain ⟨_, rfl⟩ := List.append_inj bytes (header'.property.trans header.property.symm)
    obtain ⟨_, decoded'⟩ := decodes (getIndexOfHeader firstHeaderAsked s.node.blockchain + 1)
      (s.node.blockchain.sliceEnd firstHeaderAsked p.stopHash)
    have sent := (Prod.mk.inj (Except.ok.inj (decoded'.symm.trans decoded))).1
    exact ⟨channel, k, start, indexed.lookups_of_fits start.bound ends ⟨after, inside, sent⟩⟩
  · rintro ⟨channel, k, start, lookups⟩
    obtain ⟨e, ends, after, inside, same⟩ := lookups.fits
    obtain ⟨stop, decoded⟩ := decodes (k + 1) e
    obtain ⟨header, shape⟩ := @framed_shape _ ("headers", headersMessagePayload
      (slice s.node.blockchain.headers (k + 1) e)) name
    refine ⟨k, e, _, stop, _, start, ends, decoded, shape, ?_⟩
    refine (handle_getheaders_message_sends valid asked _).mpr ⟨channel, after, inside, _, ?_, rfl⟩
    rw [same, HeadersMessage.marshalling, shape]

end Getheaders

def GetHeadersPayload.one (locatorHash stopHash : Hash) : GetHeadersPayload :=
  ⟨70015, CompactSizeUint.new 1, [locatorHash], stopHash⟩

theorem GetHeadersPayload.one_wellFormed (locatorHash stopHash : Hash) : (one locatorHash stopHash).WellFormed :=
  CompactSizeUint.new_counts (by decide)

/-- A request that starts at the first header and does not stop. -/
theorem handle_getheaders_message_answered_unlimited :
    let _ := Crates.standard
    GetheadersAnswered ⟨.short, ⟨true, []⟩⟩ (.one genesisBlockHeader.hash (U8Array.replicate 32 0)) := by
  intro crates
  refine (handle_getheaders_message_answered_iff NodeDataPointers.short_consistent.1 (by decide)
    (GetHeadersPayload.one_wellFormed _ _) rfl).mpr ⟨rfl, 0, .inl ⟨_, rfl, rfl⟩, .unlimited ?_ (by decide) rfl⟩
  decide +kernel

/-- A stop hash that no header has. -/
theorem handle_getheaders_message_unknown_stop :
    let _ := Crates.standard
    let s : PeerState := ⟨.short, ⟨true, []⟩⟩
    let p := GetHeadersPayload.one genesisBlockHeader.hash (U8Array.replicate 32 7)
    s.node.blockchain.Indexed ∧ p.WellFormed ∧ (handleGetheadersMessage p.toLeBytes).run s = (Outcome.panic, s) ∧
      ¬GetheadersAnswered s p := by
  intro crates s p
  have valid := GetHeadersPayload.one_wellFormed genesisBlockHeader.hash (U8Array.replicate 32 7)
  have outside : ¬(getIndexOfHeader genesisBlockHeader.hash s.node.blockchain + 1 ≤
      s.node.blockchain.sliceEnd genesisBlockHeader.hash p.stopHash ∧
    s.node.blockchain.sliceEnd genesisBlockHeader.hash p.stopHash ≤ s.node.blockchain.headers.length) := by
    decide +kernel
  have ran := handle_getheaders_message_run (s := s) valid rfl
  rw [getRange, if_neg outside] at ran
  refine ⟨NodeDataPointers.short_consistent.1, valid, ran, ?_⟩
  rintro ⟨k, e, payload, stop, message, start, ends, decoded, written, returned⟩
  cases (Prod.mk.inj (ran.symm.trans returned)).1

end BitcoinNode
