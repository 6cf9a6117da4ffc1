import BitcoinNode.MalformedPayloads

/-! The locator hashes of a getheaders message. The count in front of them is always one, so what a peer
reads back is the list that was given only when the list has one hash. -/
namespace BitcoinNode

open Decoder GetHeadersMessage

section Locator

variable [Crates]

/-- What a peer reads: the same version, these locator hashes, and no hash to stop at. -/
def GetHeadersMessage.ReadBack (message : GetHeadersMessage) (locatorHashes : List Hash) : Prop :=
  ∃ payload stop, GetHeadersPayload.readFrom message.payload.toLeBytes 0 = .ok (payload, stop) ∧
    payload.version = message.payload.version ∧ payload.locatorHashes = locatorHashes ∧
    payload.stopHash = U8Array.replicate 32 0

theorem read_from_one (config : HeadersConfig) (hash : Hash) : ∃ stop,
    GetHeadersPayload.readFrom (buildGetheadersMessage config [hash]).payload.toLeBytes 0 =
      .ok ((buildGetheadersMessage config [hash]).payload, stop) :=
  GetHeadersPayload.read_from_to_le_bytes (CompactSizeUint.new_counts (by decide))

/-- The count says one, and there is none: the decoder panics at the stop hash. -/
theorem read_from_none (config : HeadersConfig) :
    GetHeadersPayload.readFrom (buildGetheadersMessage config []).payload.toLeBytes 0 = Outcome.panic := by
  have counts : (CompactSizeUint.new 1).Counts 1 := CompactSizeUint.new_counts (by decide)
  have shape : (buildGetheadersMessage config []).payload.toLeBytes =
      u32ToLeBytes config.protocolVersion.toUInt32 ++
        ((CompactSizeUint.new 1).marshalling ++ List.replicate 32 0) := by
    simp [buildGetheadersMessage, GetHeadersPayload.toLeBytes, U8Array.replicate]
  have cut : GetHeadersPayload.Cut (buildGetheadersMessage config []).payload.toLeBytes := by
    refine .inr (.inr ⟨_, 1, List.replicate 32 0, counts, ?_, by simp⟩)
    rw [shape, List.drop_left' (u32_to_le_bytes_length _)]
  exact (@GetHeadersPayload.read_from_panics 0 _ 0 (Nat.zero_le _) (Nat.zero_le _)).1.mpr cut

/-- The second of several hashes is read as the one to stop at, and the others are not read. -/
theorem read_from_several (config : HeadersConfig) (first second : Hash) (more : List Hash) :
    let payload := (buildGetheadersMessage config (first :: second :: more)).payload
    ∃ stop, GetHeadersPayload.readFrom payload.toLeBytes 0 =
      .ok (⟨payload.version, payload.hashCount, [first], second⟩, stop) := by
  intro payload
  have counts : (CompactSizeUint.new 1).Counts 1 := CompactSizeUint.new_counts (by decide)
  have reads := @GetHeadersPayload.read_from_reads ⟨payload.version, CompactSizeUint.new 1, [first], second⟩
    counts [] (more.flatMap (·.val) ++ List.replicate 32 0)
  have shape : payload.toLeBytes =
      GetHeadersPayload.toLeBytes ⟨payload.version, CompactSizeUint.new 1, [first], second⟩ ++
        (more.flatMap (·.val) ++ List.replicate 32 0) := by
    simp [payload, buildGetheadersMessage, GetHeadersPayload.toLeBytes, U8Array.replicate]
  rw [List.nil_append, List.length_nil, ← shape] at reads
  exact ⟨_, reads⟩

/-- The list comes back exactly when it has one hash. -/
theorem getheaders_read_back (config : HeadersConfig) (locatorHashes : List Hash) :
    (buildGetheadersMessage config locatorHashes).ReadBack locatorHashes ↔ locatorHashes.length = 1 := by
  match locatorHashes with
  | [] =>
    refine iff_of_false ?_ (by decide)
    rintro ⟨payload, stop, read, _⟩
    rw [read_from_none] at read
    cases read
  | [hash] =>
    obtain ⟨stop, read⟩ := read_from_one config hash
    exact iff_of_true ⟨_, stop, read, rfl, rfl, rfl⟩ rfl
  | first :: second :: more =>
    refine iff_of_false ?_ (by simp)
    rintro ⟨payload, stop, read, _, hashes, _⟩
    obtain ⟨stop', read'⟩ := read_from_several config first second more
    obtain ⟨rfl, _⟩ := Prod.mk.inj (Except.ok.inj (read.symm.trans read'))
    simp at hashes

end Locator

/-- The second of two locator hashes comes back as the hash to stop at. -/
theorem getheaders_read_back_two :
    let _ := Crates.standard
    let config : HeadersConfig := ⟨70015, 100000, "2023-04-10", "%Y-%m-%d"⟩
    let locatorHashes := [U8Array.replicate 32 1, U8Array.replicate 32 2]
    ¬(buildGetheadersMessage config locatorHashes).ReadBack locatorHashes ∧
      ∃ payload stop, GetHeadersPayload.readFrom
          (buildGetheadersMessage config locatorHashes).payload.toLeBytes 0 = .ok (payload, stop) ∧
        payload.locatorHashes = [U8Array.replicate 32 1] ∧ payload.stopHash = U8Array.replicate 32 2 := by
  intro _ config locatorHashes
  obtain ⟨stop, read⟩ := read_from_several config (U8Array.replicate 32 1) (U8Array.replicate 32 2) []
  refine ⟨?_, _, stop, read, rfl, rfl⟩
  rintro ⟨payload, stop', read', _, hashes, _⟩
  obtain ⟨rfl, _⟩ := Prod.mk.inj (Except.ok.inj (read.symm.trans read'))
  exact absurd (congrArg List.length hashes) (by decide)

end BitcoinNode
