import BitcoinNode.GetheadersReplies
import BitcoinNode.InvMessages
import BitcoinNode.MalformedBytes
import BitcoinNode.VersionPayload

/-! Malformed getdata, inv, getheaders and version payloads. Their decoders slice without a guard,
so each of them panics on everything that ends before the last byte it looks at. -/
namespace BitcoinNode

open Decoder

/-- Fewer bytes are left than `count` inventories take. -/
def GetDataPayload.Cut (payload : List UInt8) : Prop :=
  Counted (fun count inventories => inventories.length < 36 * count) payload

theorem GetDataPayload.unmarshalling_panics : Panics least unmarshalling GetDataPayload.Cut := by
  refine Panics.counted fun count n _ => ?_
  have entries : Fixed (n * 36) (replicate n (do
      let inventoryBytes ← array 36
      return Inventory.fromLeBytes inventoryBytes : Decoder String Inventory)) :=
    ((Fixed.array 36).map _).replicate n
  rw [Nat.mul_comm] at entries
  exact entries.panics

/-- No room for the version, or for the announced hashes and the stop hash. -/
def GetHeadersPayload.Cut (payload : List UInt8) : Prop :=
  payload.length < 4 ∨
    Counted (fun hashCount hashes => hashes.length < 32 * hashCount + 32) (payload.drop 4)

theorem GetHeadersPayload.read_from_panics : Panics least readFrom GetHeadersPayload.Cut := by
  refine Panics.array fun version => Panics.counted fun count n _ => ?_
  have hashes : Fixed (n * 32 + 32) (do
      let locatorHashes ← replicate n (array 32)
      let stopHash ← array 32
      return ⟨u32FromLeBytes version, count, locatorHashes, stopHash⟩ :
      Decoder String GetHeadersPayload) :=
    ((Fixed.array 32).replicate n).bind fun _ => (Fixed.array 32).map _
  rw [Nat.mul_comm] at hashes
  exact hashes.panics

/-- The loop reads its inventories or panics; what it has noted by then stays noted. -/
theorem receive_inventories_run {payload : List UInt8} {count offset : Nat} {inventories : List Inventory}
    {s : InvState} (inside : offset ≤ payload.length) :
    (offset + 36 * count ≤ payload.length → ∃ read, ((receiveInventories payload count offset
      inventories).run s).1 = .ok read) ∧
    (payload.length < offset + 36 * count →
      ((receiveInventories payload count offset inventories).run s).1 = Outcome.panic) := by
  induction count generalizing offset inventories s with
  | zero => exact ⟨fun _ => ⟨inventories, rfl⟩, fun outside => absurd inside (by omega)⟩
  | succ count ih =>
    obtain ⟨reads, panics⟩ := (Fixed.array 36 (ε := NodeCustomErrors)) payload offset inside
    by_cases here : offset + 36 ≤ payload.length
    · obtain ⟨inventoryBytes, read⟩ := reads here
      have next (inventories : List Inventory) (s : InvState) :=
        @ih (offset + 36) inventories s here
      have shift : offset + 36 * (count + 1) = offset + 36 + 36 * count := by omega
      rw [receiveInventories, Proc.run_bind, Proc.run_lift, read, shift]
      dsimp only
      rw [Proc.run_bind_ok _ (Proc.run_get s)]
      split_ifs
      · rw [Proc.run_bind_ok _ (Proc.run_modify _ s)]
        exact next _ _
      · exact next _ _
    · refine ⟨fun there => absurd there (by omega), fun _ => ?_⟩
      rw [receiveInventories, Proc.run_bind, Proc.run_lift, panics (by omega)]
      rfl

section Inv

variable [Crates]

/-- Asking fails only on a closed channel. -/
theorem ask_for_incoming_tx_returns (inventories : List Inventory) (s : InvState) :
    ((askForIncomingTx inventories).run s).1.Returns := by
  obtain ⟨bytes, built⟩ := GetDataMessage.marshalling_new inventories
  rw [askForIncomingTx, built, Outcome.widen_ok, Proc.run_bind_ok _ (Proc.run_lift _ _),
    Proc.run_zoom, NodeSender.send, Proc.run_bind_ok _ (Proc.run_get _)]
  split_ifs
  · exact .inl ⟨(), rfl⟩
  · exact .inr ⟨_, rfl⟩

theorem handle_inv_message_returns_iff (payload : List UInt8) (s : InvState) :
    ((handleInvMessage payload).run s).1.Returns ↔ ¬GetDataPayload.Cut payload := by
  rw [handleInvMessage, Proc.run_bind, Proc.run_lift]
  rcases CompactSizeUint.front_cases payload with ⟨count, n, more, counts, rfl, read⟩ | ⟨failure, failed, same⟩
  · have inside : count.marshalling.length ≤ (count.marshalling ++ more).length := by simp
    obtain ⟨reads, panics⟩ := @receive_inventories_run _ n count.marshalling.length [] s inside
    rw [GetDataPayload.Cut, counted_iff counts, read, List.length_append] at *
    simp only [Outcome.mapErr_ok, counts.2, Outcome.widen_ok]
    rw [Proc.run_bind_ok _ (Proc.run_lift _ _), Proc.run_bind]
    rcases ran : (receiveInventories (count.marshalling ++ more) n count.marshalling.length []).run s
      with ⟨result, after⟩
    rw [ran] at reads panics
    by_cases short : more.length < 36 * n
    · obtain rfl : result = Outcome.panic := panics (by omega)
      rw [Outcome.returns_iff]
      exact iff_of_false (fun returns => returns.1 rfl) (not_not_intro short)
    · obtain ⟨inventories, rfl⟩ : ∃ read, result = .ok read := reads (by omega)
      refine iff_of_true ?_ short
      dsimp only
      split_ifs
      · exact .inl ⟨(), rfl⟩
      · exact ask_for_incoming_tx_returns _ _
  · rw [GetDataPayload.Cut, counted_failed failed, ← same, failed, Outcome.returns_iff, Outcome.returns_iff]
    cases failure <;> simp [Outcome.mapErr, Outcome.fail, Outcome.panic, Outcome.abort]

end Inv

/-- Past the fixed part: nothing at all, a length that is cut, a user agent that ends early, or a
readable one without the start height and the relay flag behind it. -/
def VersionPayload.TailCut (rest : List UInt8) : Prop :=
  rest = [] ∨ Counted (fun userAgentBytes more => more.length < userAgentBytes ∨
    (∃ userAgent, fromUtf8 (more.take userAgentBytes) = .ok userAgent) ∧
      more.length < userAgentBytes + 5) rest

def VersionPayload.Cut (payload : List UInt8) : Prop :=
  payload.length < 80 ∨ VersionPayload.TailCut (payload.drop 80)

theorem get_user_agent_bytes_present {bytes : List UInt8} {counter : Nat} (here : counter < bytes.length) :
    getUserAgentBytesFromBytes bytes counter = CompactSizeUint.unmarshalling bytes counter := by
  obtain ⟨front, firstByte, more, rfl, rfl⟩ : ∃ front firstByte more,
      bytes = front ++ firstByte :: more ∧ counter = front.length := by
    refine ⟨bytes.take counter, bytes[counter], bytes.drop (counter + 1), ?_, ?_⟩
    · rw [← List.drop_eq_getElem_cons here, List.take_append_drop]
    · rw [List.length_take_of_le (Nat.le_of_lt here)]
  by_cases cut : more.length < CompactSizeUint.extra firstByte
  · obtain ⟨panics, _⟩ := @CompactSizeUint.unmarshalling_panics 0 (front ++ firstByte :: more) front.length
      (Nat.zero_le _) (Nat.le_of_lt here)
    rw [List.drop_left] at panics
    rw [getUserAgentBytesFromBytes, panics.mpr ⟨firstByte, more, rfl, cut⟩]
    rfl
  · have valid : CompactSizeUint.Structural ⟨firstByte :: more.take (CompactSizeUint.extra firstByte)⟩ :=
      ⟨firstByte, _, rfl, List.length_take_of_le (Nat.le_of_not_lt cut)⟩
    have read := CompactSizeUint.unmarshalling_reads valid front (more.drop (CompactSizeUint.extra firstByte))
    rw [CompactSizeUint.marshalling, List.append_assoc, List.cons_append, List.take_append_drop] at read
    rw [getUserAgentBytesFromBytes, read]

theorem from_utf8_cases (bytes : List UInt8) :
    (∃ text, fromUtf8 bytes = .ok text) ∨ fromUtf8 bytes = Outcome.fail "invalid utf-8 sequence" := by
  unfold fromUtf8
  cases String.fromUTF8? ⟨bytes.toArray⟩ with
  | some text => exact .inl ⟨text, rfl⟩
  | none => exact .inr rfl

theorem get_relay_panics (g : Bool → α) :
    Panics least (do let relay ← getRelayFromBytes; return g relay) (fun rest => rest.length < 1) := by
  intro input start _ inside
  have left := List.length_drop (l := input) (i := start)
  by_cases here : start < input.length
  · have read : getRelayFromBytes input start = .ok (input[start] == 1, start) := by
      rw [getRelayFromBytes, Outcome.index_of_lt _ _ here]
      rfl
    rw [bind_ok _ read]
    exact ⟨iff_of_false (fun failed => by cases failed) (by omega), fun failed => by cases failed⟩
  · have none : input[start]? = none := List.getElem?_eq_none (by omega)
    have panics : getRelayFromBytes input start = Outcome.panic := by
      simp [getRelayFromBytes, Outcome.index, none, Outcome.panic]
    rw [bind_apply, panics]
    exact ⟨iff_of_true rfl (by omega), fun failed => by cases failed⟩

theorem user_agent_panics (amount : Nat) (g : String → U8Array 4 → Bool → α) :
    Panics least (do
      let userAgent ← getUserAgentFromBytes amount
      let startHeight ← array 4
      let relay ← getRelayFromBytes
      return g userAgent startHeight relay)
      (fun more => more.length < amount ∨
        (∃ userAgent, fromUtf8 (more.take amount) = .ok userAgent) ∧ more.length < amount + 5) := by
  have last (userAgent : String) : Panics least (do
      let startHeight ← array 4
      let relay ← getRelayFromBytes
      return g userAgent startHeight relay) (fun more => more.length < 5) := by
    refine (Panics.array fun startHeight => get_relay_panics _).congr fun more => ?_
    rw [List.length_drop]
    omega
  have rest (word : List UInt8) : Panics (max least word.length) (do
      let userAgent ← result (fromUtf8 word)
      let startHeight ← array 4
      let relay ← getRelayFromBytes
      return g userAgent startHeight relay)
      (fun more => (∃ userAgent, fromUtf8 word = .ok userAgent) ∧ more.length < 5) := by
    rcases from_utf8_cases word with ⟨text, readable⟩ | unreadable
    · rw [readable]
      refine ((last text).longer (Nat.le_max_left _ _)).congr fun more => ?_
      simp
    · rw [unreadable]
      refine (Panics.fail _).congr fun more => iff_of_false id ?_
      simp [Outcome.fail]
  have whole := Panics.bind (.take amount) (.takes amount) fun word _ => rest word
  rw [getUserAgentFromBytes, bind_assoc]
  refine whole.congr fun more => ?_
  constructor
  · rintro (short | ⟨word, after, rfl, rfl, readable, few⟩)
    · exact .inl short
    · refine .inr ⟨?_, ?_⟩
      · rwa [id, List.take_left]
      · rw [id, List.length_append]
        omega
  · rintro (short | ⟨readable, few⟩)
    · exact .inl short
    · by_cases short : more.length < amount
      · exact .inl short
      · refine .inr ⟨more.take amount, more.drop amount, List.length_take_of_le (by omega),
          (List.take_append_drop amount more).symm, readable, ?_⟩
        rw [List.length_drop]
        omega

theorem VersionPayload.tail_panics (g : CompactSizeUint → String → U8Array 4 → Bool → VersionPayload) :
    Panics least (do
      let userAgentBytes ← getUserAgentBytesFromBytes
      let amount ← lift userAgentBytes.decodedValue
      let userAgent ← getUserAgentFromBytes amount
      let startHeight ← array 4
      let relay ← getRelayFromBytes
      return g userAgentBytes userAgent startHeight relay) VersionPayload.TailCut := by
  have after (count : CompactSizeUint) (amount : Nat) := @user_agent_panics _ least amount (g count)
  have counted := Panics.counted fun count amount _ => after count amount
  intro input start enough inside
  have left := List.length_drop (l := input) (i := start)
  by_cases here : start < input.length
  · have some : input.drop start ≠ [] := List.ne_nil_of_length_pos (by omega)
    rw [bind_congr _ (get_user_agent_bytes_present here), VersionPayload.TailCut, or_iff_right some]
    exact counted input start enough inside
  · -- the length is taken to be 0, and then the start height is missing
    have nothing : input.drop start = [] := List.drop_of_length_le (by omega)
    have length : getUserAgentBytesFromBytes input start = .ok (CompactSizeUint.new 0, start) := by
      have missing : require 1 "The received bytes are not enough to unmarshall the CompactSizeUint"
          input start = Outcome.fail "The received bytes are not enough to unmarshall the CompactSizeUint" := by
        rw [require, if_neg (by omega), if_pos (by omega)]
      have fails : CompactSizeUint.unmarshalling input start = Outcome.fail
          "The received bytes are not enough to unmarshall the CompactSizeUint" := by
        rw [CompactSizeUint.unmarshalling, bind_apply, missing]
        rfl
      rw [getUserAgentBytesFromBytes, fails]
      rfl
    have amount : lift (CompactSizeUint.new 0).decodedValue input start =
        (.ok (0, start) : Outcome String _) := rfl
    obtain ⟨panics, never⟩ := after (CompactSizeUint.new 0) 0 input start enough inside
    rw [bind_ok _ length, bind_ok _ amount]
    refine ⟨iff_of_true (panics.mpr (.inr ⟨⟨"", ?_⟩, by omega⟩)) (.inl nothing), never⟩
    rfl

theorem VersionPayload.from_le_bytes_panics : Panics least fromLeBytes VersionPayload.Cut := by
  refine (Panics.array fun _ => .array fun _ => .array fun _ => .array fun _ => .array fun _ => .array fun _ =>
    .array fun _ => .array fun _ => .array fun _ => .array fun _ => tail_panics _).congr fun payload => ?_
  simp only [List.length_drop, List.drop_drop, VersionPayload.Cut, ← or_assoc]
  refine or_congr ?_ Iff.rfl
  omega

/-- The four decoders return exactly on the payloads that hold all the bytes they go on to look at. -/
theorem payload_decoders_return_iff [Crates] (payload : List UInt8) :
    ((GetDataPayload.unmarshalling payload 0).Returns ↔ ¬GetDataPayload.Cut payload) ∧
      (∀ s : InvState, ((handleInvMessage payload).run s).1.Returns ↔ ¬GetDataPayload.Cut payload) ∧
      ((GetHeadersPayload.readFrom payload 0).Returns ↔ ¬GetHeadersPayload.Cut payload) ∧
      ((VersionPayload.fromLeBytes payload 0).Returns ↔ ¬VersionPayload.Cut payload) :=
  ⟨GetDataPayload.unmarshalling_panics.returns_iff payload, handle_inv_message_returns_iff payload,
    GetHeadersPayload.read_from_panics.returns_iff payload,
    VersionPayload.from_le_bytes_panics.returns_iff payload⟩

/-- One announced inventory that is not there; a request of three bytes; a version message that ends
behind its nonce. -/
theorem payload_decoders_panic :
    let _ := Crates.standard
    GetDataPayload.unmarshalling [1] 0 = Outcome.panic ∧
      ((handleInvMessage [1]).run ⟨[], true, []⟩).1 = Outcome.panic ∧
      GetHeadersPayload.readFrom [0, 0, 0] 0 = Outcome.panic ∧
      VersionPayload.fromLeBytes (List.replicate 80 0) 0 = Outcome.panic ∧
      ¬(GetDataPayload.unmarshalling [1] 0).Returns ∧
      ¬((handleInvMessage [1]).run ⟨[], true, []⟩).1.Returns ∧
      ¬(GetHeadersPayload.readFrom [0, 0, 0] 0).Returns ∧
      ¬(VersionPayload.fromLeBytes (List.replicate 80 0) 0).Returns := by
  intro _
  have getdata : GetDataPayload.unmarshalling [1] 0 = Outcome.panic := rfl
  have inv : ((handleInvMessage [1]).run ⟨[], true, []⟩).1 = Outcome.panic := rfl
  have getheaders : GetHeadersPayload.readFrom [0, 0, 0] 0 = Outcome.panic := rfl
  have version : VersionPayload.fromLeBytes (List.replicate 80 0) 0 = Outcome.panic :=
    (@VersionPayload.from_le_bytes_panics 0 _ 0 (Nat.zero_le _) (Nat.zero_le _)).1.mpr (.inr (.inl rfl))
  simp only [Outcome.returns_iff]
  exact ⟨getdata, inv, getheaders, version, fun returns => returns.1 getdata, fun returns => returns.1 inv,
    fun returns => returns.1 getheaders, fun returns => returns.1 version⟩

end BitcoinNode
