import BitcoinNode.GetheadersReplies
import BitcoinNode.Handlers
import BitcoinNode.MalformedBytes
import BitcoinNode.ProofOfWork

/-! Headers messages of any bytes: which of them are decoded, and to what, and on which ones the
handler does not return. The loop of the decoder is guarded throughout; the count in front of it
and the proof of work behind it are not. -/
namespace BitcoinNode

open Decoder

theorem BlockHeader.unmarshalling_guarded {input : List UInt8} {start : Nat}
    (room : start + 80 ≤ input.length) : ∃ h : BlockHeader,
      BlockHeader.unmarshalling input start = .ok (h, start + 80) ∧
      slice input start (start + 80) = h.marshalling := by
  have body : Fixed 80 (do
      let version ← array 4
      let previousBlockHeaderHash ← array 32
      let merkleRootHash ← array 32
      let time ← array 4
      let nBits ← array 4
      let nonce ← array 4
      return ⟨i32FromLeBytes version, previousBlockHeaderHash, merkleRootHash,
        u32FromLeBytes time, u32FromLeBytes nBits, u32FromLeBytes nonce⟩ :
      Decoder String BlockHeader) :=
    (Fixed.array 4).bind fun _ => (Fixed.array 32).bind fun _ => (Fixed.array 32).bind fun _ =>
      (Fixed.array 4).bind fun _ => (Fixed.array 4).bind fun _ => (Fixed.array 4).map _
  obtain ⟨h, read⟩ := (body input start (by omega)).1 room
  have accepted : BlockHeader.unmarshalling input start = .ok (h, start + 80) := by
    rw [BlockHeader.unmarshalling, bind_ok _ (show require 80 _ input start = .ok ((), start) by
      rw [require, if_neg (by omega), if_neg (by omega)])]
    exact read
  obtain ⟨_, _, word, _⟩ := BlockHeader.unmarshalling_format.spans _ _ _ _ (by omega) accepted
  exact ⟨h, accepted, word⟩

theorem BlockHeader.marshalling_injective {h h' : BlockHeader} (same : h.marshalling = h'.marshalling) :
    h = h' := by
  have read := BlockHeader.unmarshalling_reads h [] []
  have read' := BlockHeader.unmarshalling_reads h' [] []
  rw [← same, read] at read'
  exact (Prod.mk.inj (Except.ok.inj read')).1

namespace HeadersMessage

/-- Header `i` stands at `start + 81 * i`; the byte after the last one may be missing. -/
def Records (input : List UInt8) (start : Nat) (headers : List BlockHeader) : Prop :=
  ∀ (i : Nat) (h : BlockHeader), headers[i]? = some h → start + 81 * i + 80 ≤ input.length ∧
    slice input (start + 81 * i) (start + 81 * i + 80) = h.marshalling

/-- The count is whole, and as many headers follow. -/
def Carries (payload : List UInt8) (headers : List BlockHeader) : Prop :=
  ∃ count : CompactSizeUint, count.Counts headers.length ∧ count.marshalling <+: payload ∧
    Records payload count.marshalling.length headers

theorem record_guarded {input : List UInt8} {start : Nat} (room : start + 80 ≤ input.length) :
    ∃ h : BlockHeader, record input start = .ok (h, start + 81) ∧
      slice input start (start + 80) = h.marshalling := by
  obtain ⟨h, read, word⟩ := BlockHeader.unmarshalling_guarded room
  refine ⟨h, ?_, word⟩
  rw [record, bind_ok _ (show position _ _ = .ok (start, start) from rfl),
    bind_ok _ (show length _ _ = .ok (input.length, start) from rfl), if_neg (by omega), bind_ok _ read]
  rfl

theorem record_short {input : List UInt8} {start : Nat} (short : input.length < start + 80) :
    record input start = Outcome.fail "Out of bounds" := by
  rw [record, bind_ok _ (show position _ _ = .ok (start, start) from rfl),
    bind_ok _ (show length _ _ = .ok (input.length, start) from rfl), if_pos short]
  rfl

theorem Records.cons {input : List UInt8} {start : Nat} {h : BlockHeader} {headers : List BlockHeader}
    (room : start + 80 ≤ input.length) (word : slice input start (start + 80) = h.marshalling)
    (rest : Records input (start + 81) headers) : Records input start (h :: headers) := by
  intro i h' here
  cases i with
  | zero =>
    obtain rfl := Option.some.inj here
    exact ⟨room, word⟩
  | succ i =>
    have shift : start + 81 * (i + 1) = start + 81 + 81 * i := by omega
    rw [shift]
    exact rest i h' here

/-- Wherever it starts, also past the end, the loop reads its headers or returns an error. -/
theorem records_read (n : Nat) (input : List UInt8) (start : Nat) :
    (∃ headers, replicate n record input start = .ok (headers, start + 81 * n) ∧
      headers.length = n ∧ Records input start headers) ∨
    replicate n record input start = Outcome.fail "Out of bounds" ∧
      ∃ i, i < n ∧ input.length < start + 81 * i + 80 := by
  induction n generalizing start with
  | zero => exact .inl ⟨[], rfl, rfl, fun i h here => by simp at here⟩
  | succ n ih =>
    by_cases room : start + 80 ≤ input.length
    · obtain ⟨h, read, word⟩ := record_guarded room
      rcases ih (start + 81) with ⟨headers, rest, length, records⟩ | ⟨rest, i, inside, short⟩
      · refine .inl ⟨h :: headers, ?_, by simp [length], records.cons room word⟩
        rw [replicate, bind_ok _ read, bind_ok _ rest, Nat.add_assoc, Nat.mul_succ, Nat.add_comm 81]
        rfl
      · refine .inr ⟨?_, i + 1, by omega, by omega⟩
        rw [replicate, bind_ok _ read, bind_apply, rest]
        rfl
    · refine .inr ⟨?_, 0, by omega, by omega⟩
      rw [replicate, bind_apply, record_short (by omega)]
      rfl

theorem Records.unique {input : List UInt8} {start : Nat} {headers headers' : List BlockHeader}
    (records : Records input start headers) (records' : Records input start headers')
    (length : headers.length = headers'.length) : headers = headers' := by
  refine List.ext_getElem length fun i inside inside' => BlockHeader.marshalling_injective ?_
  rw [← (records i _ (List.getElem?_eq_getElem inside)).2,
    ← (records' i _ (List.getElem?_eq_getElem inside')).2]

theorem count_read {payload : List UInt8} {count : CompactSizeUint} {n : Nat} (counts : count.Counts n)
    (front : count.marshalling <+: payload) :
    unmarshalling payload 0 = replicate n record payload count.marshalling.length := by
  obtain ⟨more, rfl⟩ := front
  have read := CompactSizeUint.unmarshalling_reads counts.1 [] more
  rw [List.nil_append, List.length_nil, Nat.zero_add] at read
  have whole : unmarshalling = (do
      let count ← CompactSizeUint.unmarshalling
      let amount ← lift count.decodedValue
      replicate amount record) := rfl
  have value : lift count.decodedValue (count.marshalling ++ more) count.marshalling.length =
      (.ok (n, count.marshalling.length) : Outcome String _) := by
    rw [lift, counts.2]
    rfl
  rw [whole, bind_ok _ read, bind_ok _ value]

theorem count_cases (payload : List UInt8) :
    (¬CompactSizeUint.Cut payload ∧
      ∃ (count : CompactSizeUint) (n : Nat), count.Counts n ∧ count.marshalling <+: payload) ∨
    ∃ failure, unmarshalling payload 0 = .error failure ∧
      (Outcome.Returns (.error failure : Outcome String Unit) ↔ ¬CompactSizeUint.Cut payload) := by
  rcases CompactSizeUint.front_cases payload with ⟨count, n, more, counts, rfl, read⟩ | ⟨failure, failed, same⟩
  · refine .inl ⟨?_, count, n, counts, List.prefix_append _ _⟩
    exact (CompactSizeUint.unmarshalling_panics.returns_iff _).mp (.inl ⟨_, read⟩)
  · refine .inr ⟨failure, ?_, same⟩
    rw [unmarshalling, bind_apply, failed]
    rfl

/-- The decoder accepts exactly the payloads that carry headers, and returns these. -/
theorem unmarshalling_ok_iff {payload : List UInt8} {headers : List BlockHeader} :
    (∃ stop, unmarshalling payload 0 = .ok (headers, stop)) ↔ Carries payload headers := by
  constructor
  · rintro ⟨stop, decoded⟩
    rcases count_cases payload with ⟨_, count, n, counts, front⟩ | ⟨failure, ended, _⟩
    · rw [count_read counts front] at decoded
      rcases records_read n payload count.marshalling.length with ⟨headers', read, rfl, records⟩ | ⟨failed, _⟩
      · obtain rfl := (Prod.mk.inj (Except.ok.inj (read.symm.trans decoded))).1
        exact ⟨count, counts, front, records⟩
      · rw [failed] at decoded
        cases decoded
    · rw [ended] at decoded
      cases decoded
  · rintro ⟨count, counts, front, records⟩
    rw [count_read counts front]
    rcases records_read headers.length payload count.marshalling.length with
      ⟨headers', read, length, records'⟩ | ⟨_, i, inside, short⟩
    · obtain rfl := records'.unique records length
      exact ⟨_, read⟩
    · have room := (records i _ (List.getElem?_eq_getElem inside)).1
      omega

/-- Behind a whole count there are only errors. -/
theorem unmarshalling_returns_iff {payload : List UInt8} :
    (unmarshalling payload 0).Returns ↔ ¬CompactSizeUint.Cut payload := by
  rcases count_cases payload with ⟨whole, count, n, counts, front⟩ | ⟨failure, ended, same⟩
  · refine iff_of_true ?_ whole
    rw [count_read counts front]
    rcases records_read n payload count.marshalling.length with ⟨headers, read, _⟩ | ⟨failed, _⟩
    · exact .inl ⟨_, read⟩
    · exact .inr ⟨_, failed⟩
  · rw [← same, ended, Outcome.returns_iff, Outcome.returns_iff]
    simp [Outcome.panic, Outcome.abort]

end HeadersMessage

theorem HeadersMessage.unmarshalling_records {payload : List UInt8} {headers : List BlockHeader} {stop : Nat}
    (decoded : unmarshalling payload 0 = .ok (headers, stop)) :
    ∃ count offset, CompactSizeUint.unmarshalling payload 0 = .ok (count, offset) ∧
      count.decodedValue = .ok headers.length ∧ ∀ (i : Nat) (h : BlockHeader), headers[i]? = some h →
        BlockHeader.unmarshalling (slice payload (offset + 81 * i) (offset + 81 * i + 80)) 0 = .ok (h, 80) := by
  obtain ⟨count, counts, ⟨more, rfl⟩, records⟩ := unmarshalling_ok_iff.mp ⟨stop, decoded⟩
  have read := CompactSizeUint.unmarshalling_reads counts.1 [] more
  rw [List.nil_append, List.length_nil, Nat.zero_add] at read
  refine ⟨count, count.marshalling.length, read, counts.2, fun i h here => ?_⟩
  have word := (records i h here).2
  have header := BlockHeader.unmarshalling_reads h [] []
  rw [List.nil_append, List.append_nil, List.length_nil, Nat.zero_add, BlockHeader.marshalling_length] at header
  rw [word, header]

/-- What is written decodes to the same list; and in whatever is decoded there are as many headers as
the count says, each of them at its place. -/
theorem headers_codec [Crates] :
    (∀ headers : List BlockHeader, headers.length < 2 ^ 64 →
      ∃ message stop, HeadersMessage.marshalling headers = .ok message ∧
        HeadersMessage.unmarshalling (message.drop 24) 0 = .ok (headers, stop)) ∧
    ∀ payload headers stop, HeadersMessage.unmarshalling payload 0 = .ok (headers, stop) →
      ∃ count offset, CompactSizeUint.unmarshalling payload 0 = .ok (count, offset) ∧
        count.decodedValue = .ok headers.length ∧ ∀ (i : Nat) (h : BlockHeader), headers[i]? = some h →
          BlockHeader.unmarshalling (slice payload (offset + 81 * i) (offset + 81 * i + 80)) 0 = .ok (h, 80) := by
  refine ⟨fun headers fits => ?_, fun _ _ _ => HeadersMessage.unmarshalling_records⟩
  obtain ⟨stop, read⟩ := HeadersMessage.unmarshalling_payload fits
  have name : "headers".toUTF8.toList.length ≤ 12 := by decide +kernel
  obtain ⟨header, written⟩ : ∃ header : U8Array 24, framed ("headers", headersMessagePayload headers) =
    .ok (header.val ++ headersMessagePayload headers) := framed_shape name
  refine ⟨_, stop, written, ?_⟩
  rwa [List.drop_left' header.property]

/-- Two headers come back, and so does the one behind a count that is three bytes wide and without the
byte after it. -/
theorem headers_codec_genesis :
    let _ := Crates.standard
    let padded := [0xfd, 1, 0] ++ genesisBlockHeader.marshalling
    (∃ message stop, HeadersMessage.marshalling [genesisBlockHeader, genesisBlockHeader] = .ok message ∧
      HeadersMessage.unmarshalling (message.drop 24) 0 = .ok ([genesisBlockHeader, genesisBlockHeader], stop)) ∧
    ∃ count offset, CompactSizeUint.unmarshalling padded 0 = .ok (count, offset) ∧
      count.decodedValue = .ok 1 ∧ ∀ (i : Nat) (h : BlockHeader), [genesisBlockHeader][i]? = some h →
        BlockHeader.unmarshalling (slice padded (offset + 81 * i) (offset + 81 * i + 80)) 0 = .ok (h, 80) := by
  intro _ padded
  have few : [genesisBlockHeader, genesisBlockHeader].length < 2 ^ 64 := by decide
  have decoded : HeadersMessage.unmarshalling padded 0 = .ok ([genesisBlockHeader], 84) := by decide +kernel
  exact ⟨headers_codec.1 _ few, headers_codec.2 _ _ _ decoded⟩

section Handler

variable [Crates]

/-- A header whose target can be made goes by, unless it is valid, new, and cannot be asked for. -/
theorem heightLoaded_iff {headers : List BlockHeader} {open_ : Bool} {header : BlockHeader} :
    heightLoaded headers open_ header = true ↔ 3 ≤ header.exponent ∧
      (header.validate = .ok true → header ∉ last10Headers headers → open_ = true) := by
  rw [← header.validate_answers_iff, heightLoaded]
  rcases header.validate with e | (_ | _)
  · simp
  · simp
  · rw [← header_is_not_included_iff]
    cases headerIsNotIncluded header headers <;> simp

/-- A header that ends the loop panics, or it cannot be asked for. -/
theorem handle_header_returns_iff {s : PeerState} {header : BlockHeader} :
    ((handleHeader header).run s).1.Returns ↔ 3 ≤ header.exponent := by
  by_cases loaded : heightLoaded s.node.blockchain.headers s.tx.open_ header = true
  · obtain ⟨tx, _, ran⟩ := handle_header_loaded loaded
    rw [ran]
    exact iff_of_true (.inl ⟨(), rfl⟩) (heightLoaded_iff.mp loaded).1
  rw [← header.validate_answers_iff]
  rcases validated : header.validate with e | valid
  · have panics : e = Failure.panic := by
      have never := header.validate_ne_abort
      rw [validated] at never
      cases e with
      | err no => exact no.elim
      | panic => rfl
      | abort => exact absurd rfl never
    subst panics
    have ran : ((handleHeader header).run s).1 = Outcome.panic := by
      simp [handleHeader, Proc.run_bind, validated, Failure.widen, Outcome.panic]
    rw [ran, Outcome.returns_iff]
    simp
  · refine iff_of_true ?_ ⟨valid, rfl⟩
    obtain ⟨bytes, built⟩ := GetDataMessage.marshalling_new [.newBlock header.hash]
    simp only [heightLoaded, validated, Bool.or_eq_true, not_or, Bool.not_eq_true, Bool.not_eq_false']
      at loaded
    obtain ⟨⟨rfl, unknown⟩, closed⟩ := loaded
    refine .inr ⟨.ThreadChannelError "sending on a closed channel", ?_⟩
    simp [handleHeader, Proc.run_bind, validated, unknown, built, NodeSender.send, closed,
      Outcome.fail]

theorem each_handle_header_returns_iff {newHeaders : List BlockHeader} {s : PeerState} :
    ((Proc.each newHeaders handleHeader).run s).1.Returns ↔
      ∀ before header after, newHeaders = before ++ header :: after →
        (∀ h ∈ before, heightLoaded s.node.blockchain.headers s.tx.open_ h = true) →
        3 ≤ header.exponent := by
  induction newHeaders generalizing s with
  | nil => exact iff_of_true (.inl ⟨(), rfl⟩) fun before header after shape => by simp at shape
  | cons first rest ih =>
    rw [forall_split_cons]
    by_cases loaded : heightLoaded s.node.blockchain.headers s.tx.open_ first = true
    · obtain ⟨tx, alive, ran⟩ := handle_header_loaded loaded
      rw [Proc.each, Proc.run_bind_ok _ ran, ih, alive]
      simp only [List.forall_mem_cons, loaded, true_and]
      exact (and_iff_right fun _ => (heightLoaded_iff.mp loaded).1).symm
    · obtain ⟨e, ran⟩ := handle_header_stopped (Bool.eq_false_iff.mpr loaded)
      have firstReturns : ((handleHeader first).run s).1.Returns ↔ 3 ≤ first.exponent := handle_header_returns_iff
      rw [ran] at firstReturns
      rw [Proc.each, Proc.run_bind_error _ ran]
      refine firstReturns.trans ⟨fun answers => ⟨fun _ => answers, fun before header after _ reached => ?_⟩, fun all => ?_⟩
      · exact absurd (reached first List.mem_cons_self) loaded
      · exact all.1 fun h inside => absurd inside List.not_mem_nil

/-- A payload ends the thread exactly when its count is cut, or when the loop comes to a header with
an exponent below 3. The loop comes to every header before which none is valid, new and cannot be
asked for. -/
theorem handle_headers_message_returns_iff (payload : List UInt8) (s : PeerState) :
    (((handleHeadersMessage payload).run s).1.Returns ↔ ¬(CompactSizeUint.Cut payload ∨
      ∃ before header after, HeadersMessage.Carries payload (before ++ header :: after) ∧
        (∀ h ∈ before, 3 ≤ h.exponent ∧ (h.validate = .ok true →
          h ∉ last10Headers s.node.blockchain.headers → s.tx.open_ = true)) ∧
        header.exponent < 3)) ∧
    ∀ header : BlockHeader, header.validate = Outcome.panic ↔ header.exponent < 3 := by
  refine ⟨?_, BlockHeader.validate_panics_iff⟩
  have whole := @HeadersMessage.unmarshalling_returns_iff payload
  rw [handleHeadersMessage, not_or, ← whole]
  rcases decoded : HeadersMessage.unmarshalling payload 0 with failure | ⟨headers, stop⟩
  · have noneCarried : ¬∃ before header after, HeadersMessage.Carries payload (before ++ header :: after) ∧
        (∀ h ∈ before, 3 ≤ h.exponent ∧ (h.validate = .ok true →
          h ∉ last10Headers s.node.blockchain.headers → s.tx.open_ = true)) ∧
        header.exponent < 3 := by
      rintro ⟨before, header, after, carried, _⟩
      obtain ⟨stop, read⟩ := HeadersMessage.unmarshalling_ok_iff.mpr carried
      rw [decoded] at read
      cases read
    rw [and_iff_left noneCarried, Proc.run_bind, Proc.run_lift, Outcome.returns_iff, Outcome.returns_iff]
    cases failure <;> simp [Outcome.mapErr, Outcome.fail, Outcome.panic, Outcome.abort]
  · have carried (hs : List BlockHeader) : HeadersMessage.Carries payload hs ↔ headers = hs := by
      rw [← HeadersMessage.unmarshalling_ok_iff, decoded]
      simp
    rw [Proc.run_bind, Proc.run_lift, and_iff_right (.inl ⟨_, rfl⟩)]
    apply each_handle_header_returns_iff.trans
    simp only [heightLoaded_iff, carried, not_exists, not_and, Nat.not_lt]

end Handler

/-- A header whose target has no room for its mantissa. -/
def BlockHeader.tiny : BlockHeader := { genesisBlockHeader with nBits := 0x02000001 }

/-- One byte is enough, and so is one header of a whole message. -/
theorem handle_headers_message_panics :
    let _ := Crates.standard
    let s : PeerState := ⟨⟨.initial, [], false⟩, ⟨true, []⟩⟩
    let header := [1] ++ BlockHeader.tiny.marshalling ++ [0]
    ((handleHeadersMessage [0xfd]).run s).1 = Outcome.panic ∧
      ((handleHeadersMessage header).run s).1 = Outcome.panic ∧
      ¬((handleHeadersMessage [0xfd]).run s).1.Returns ∧
      ¬((handleHeadersMessage header).run s).1.Returns := by
  intro _ s header
  have cut : ((handleHeadersMessage [0xfd]).run s).1 = Outcome.panic := rfl
  have decoded : HeadersMessage.unmarshalling header 0 = .ok ([.tiny], 82) := by decide +kernel
  have panics : BlockHeader.tiny.validate = Outcome.panic := (BlockHeader.validate_panics_iff _).mpr (by decide)
  have small : ((handleHeadersMessage header).run s).1 = Outcome.panic := by
    rw [handleHeadersMessage, Proc.run_bind, Proc.run_lift, decoded]
    simp [Proc.each, handleHeader, Proc.run_bind, panics, Outcome.panic, Failure.widen]
  rw [Outcome.returns_iff, Outcome.returns_iff]
  exact ⟨cut, small, fun returns => returns.1 cut, fun returns => returns.1 small⟩

end BitcoinNode
