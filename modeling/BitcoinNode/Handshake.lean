import BitcoinNode.ConfigFile
import BitcoinNode.MalformedPayloads

/-! The version message of the handshake. The length of the user agent is set apart from the user agent,
to sixteen. -/
namespace BitcoinNode

open Decoder

abbrev Segments := { segments : List UInt16 // segments.length = 8 }

/-- The address of a peer. Its port, and the flow and the scope of a `v6`, are not looked at. -/
inductive SocketAddr where
  | v4 (a b c d : UInt8)
  | v6 (ip : Segments)

/-- `addr.ip().to_ipv6_mapped().segments()` -/
def toIpv6Mapped (a b c d : UInt8) : Segments :=
  ⟨[0, 0, 0, 0, 0, 0xffff, u16FromBeBytes ⟨[a, b], rfl⟩, u16FromBeBytes ⟨[c, d], rfl⟩], rfl⟩

/-- The loop copies the two bytes of one segment after the other. -/
def getIpv6AddressIp (socketAddr : SocketAddr) : U8Array 16 :=
  let addrRecvIpAux := match socketAddr with
    | .v4 a b c d => toIpv6Mapped a b c d
    | .v6 ip => ip
  ⟨addrRecvIpAux.val.flatMap u16ToBeBytes, by simp [List.length_flatMap, addrRecvIpAux.property]⟩

/-- `timestamp` is what the clock shows and `nonce` what is drawn. -/
def getVersionPayload (config : Settings.Config) (socketAddr localIpAddr : SocketAddr) (timestamp : Int64)
    (nonce : UInt64) : VersionPayload where
  version := config.protocolVersion
  services := 0
  timestamp := timestamp
  addrRecvService := 1
  addrRecvIp := getIpv6AddressIp socketAddr
  addrRecvPort := 18333
  addrTransService := 0
  addrTransIp := getIpv6AddressIp localIpAddr
  addrTransPort := 18333
  nonce := nonce
  userAgentBytes := CompactSizeUint.new 16
  userAgent := config.userAgent
  startHeight := 1
  relay := true

namespace VersionPayload

def toLeBytes (p : VersionPayload) : List UInt8 :=
  i32ToLeBytes p.version ++ u64ToLeBytes p.services ++ i64ToLeBytes p.timestamp ++
    u64ToLeBytes p.addrRecvService ++ p.addrRecvIp.val ++ u16ToBeBytes p.addrRecvPort ++
    u64ToLeBytes p.addrTransService ++ p.addrTransIp.val ++ u16ToBeBytes p.addrTransPort ++
    u64ToLeBytes p.nonce ++ p.userAgentBytes.marshalling ++ p.userAgent.toUTF8.toList ++
    i32ToLeBytes p.startHeight ++ [if p.relay then 1 else 0]

def RoundTrips (p : VersionPayload) : Prop := ∃ stop, fromLeBytes p.toLeBytes 0 = .ok (p, stop)

theorem get_user_agent_bytes_reads {count : CompactSizeUint} {n : Nat} (counts : count.Counts n) :
    Reads getUserAgentBytesFromBytes count.marshalling count := by
  intro front back
  rw [getUserAgentBytesFromBytes, CompactSizeUint.unmarshalling_reads counts.1 front back]

theorem get_user_agent_reads (userAgent : String) :
    Reads (getUserAgentFromBytes userAgent.toUTF8.toList.length) userAgent.toUTF8.toList userAgent := by
  refine .map (.take _ _ rfl) fun front back => ?_
  rw [from_utf8_text, List.append_nil, List.length_nil, Nat.add_zero]
  rfl

theorem get_relay_reads (front : List UInt8) (relay : Bool) :
    getRelayFromBytes (front ++ [if relay then 1 else 0]) front.length = .ok (relay, front.length) := by
  have byte : (Outcome.index (front ++ [if relay then 1 else 0]) front.length : Outcome String UInt8) =
      .ok (if relay then 1 else 0) := Outcome.index_eq_ok.mpr (by simp)
  rw [getRelayFromBytes, byte]
  cases relay <;> rfl

theorem round_trips_of_counts {p : VersionPayload} (counts : p.userAgentBytes.Counts p.userAgent.toUTF8.toList.length) :
    p.RoundTrips := by
  have amount (input : List UInt8) (start : Nat) : lift p.userAgentBytes.decodedValue input start =
      (.ok (p.userAgent.toUTF8.toList.length, start) : Outcome String _) := by
    rw [lift, counts.2]
    rfl
  have bytes (n : Nat) (word : List UInt8) (length : word.length = n) :
      Reads (array n : Decoder String (U8Array n)) word ⟨word, length⟩ := .array ⟨word, length⟩
  rw [RoundTrips, fromLeBytes, ← List.nil_append p.toLeBytes, ← List.length_nil (α := UInt8), toLeBytes]
  simp only [List.append_assoc]
  rw [Reads.next (bytes 4 _ (i32_to_le_bytes_length p.version)),
    Reads.next (bytes 8 _ (u64_to_le_bytes_length p.services)),
    Reads.next (bytes 8 _ (i64_to_le_bytes_length p.timestamp)),
    Reads.next (bytes 8 _ (u64_to_le_bytes_length p.addrRecvService)), Reads.next (.array p.addrRecvIp),
    Reads.next (bytes 2 _ (u16_to_be_bytes_length p.addrRecvPort)),
    Reads.next (bytes 8 _ (u64_to_le_bytes_length p.addrTransService)), Reads.next (.array p.addrTransIp),
    Reads.next (bytes 2 _ (u16_to_be_bytes_length p.addrTransPort)),
    Reads.next (bytes 8 _ (u64_to_le_bytes_length p.nonce)), Reads.next (get_user_agent_bytes_reads counts),
    bind_ok _ (amount _ _), Reads.next (get_user_agent_reads p.userAgent),
    Reads.next (bytes 4 _ (i32_to_le_bytes_length p.startHeight)), bind_ok _ (get_relay_reads _ p.relay)]
  simp only [u64_from_to, i32_from_to, i64_from_to, u16_from_to]
  exact ⟨_, rfl⟩

theorem user_agent_length {input : List UInt8} {start stop : Nat} {p : VersionPayload}
    (read : fromLeBytes input start = .ok (p, stop)) :
    p.userAgentBytes.decodedValue = .ok p.userAgent.toUTF8.toList.length := by
  rw [fromLeBytes] at read
  iterate 10
    rw [bind_eq_ok] at read
    obtain ⟨_, _, -, read⟩ := read
  obtain ⟨count, _, -, tail⟩ := bind_eq_ok.mp read
  obtain ⟨amount, _, decoded, tail⟩ := bind_eq_ok.mp tail
  obtain ⟨text, _, userAgent, tail⟩ := bind_eq_ok.mp tail
  obtain ⟨_, _, -, tail⟩ := bind_eq_ok.mp tail
  obtain ⟨_, _, -, tail⟩ := bind_eq_ok.mp tail
  obtain ⟨rfl, _⟩ := Prod.mk.inj (Except.ok.inj tail)
  obtain ⟨value, counted, same⟩ := Outcome.bind_eq_ok.mp decoded
  obtain ⟨rfl, _⟩ := Prod.mk.inj (Except.ok.inj same)
  obtain ⟨word, _, taken, userAgent⟩ := bind_eq_ok.mp userAgent
  obtain ⟨text', legible, same⟩ := Outcome.bind_eq_ok.mp userAgent
  obtain ⟨rfl, _⟩ := Prod.mk.inj (Except.ok.inj same)
  rw [Outcome.widen_eq_ok.mp counted, from_utf8_bytes legible]
  rw [take] at taken
  split_ifs at taken with inside
  · obtain ⟨rfl, _⟩ := Prod.mk.inj (Except.ok.inj taken)
    rw [slice_length _ _ _ inside, Nat.add_sub_cancel_left]
  · cases taken

end VersionPayload

/-- A user agent that is shorter by more than what follows it is not even read. -/
theorem short_user_agent_panics {config : Settings.Config} (short : config.userAgent.toUTF8.toList.length < 11)
    (socketAddr localIpAddr : SocketAddr) (timestamp : Int64) (nonce : UInt64) :
    VersionPayload.fromLeBytes (getVersionPayload config socketAddr localIpAddr timestamp nonce).toLeBytes 0 =
      Outcome.panic := by
  let p := getVersionPayload config socketAddr localIpAddr timestamp nonce
  have sixteen : (CompactSizeUint.new 16).Counts 16 := CompactSizeUint.new_counts (by decide)
  obtain ⟨front, length, shape⟩ : ∃ front : List UInt8, front.length = 80 ∧ p.toLeBytes = front ++
      ((CompactSizeUint.new 16).marshalling ++ (config.userAgent.toUTF8.toList ++ (i32ToLeBytes 1 ++ [1]))) := by
    refine ⟨i32ToLeBytes p.version ++ u64ToLeBytes p.services ++ i64ToLeBytes p.timestamp ++
      u64ToLeBytes p.addrRecvService ++ p.addrRecvIp.val ++ u16ToBeBytes p.addrRecvPort ++
      u64ToLeBytes p.addrTransService ++ p.addrTransIp.val ++ u16ToBeBytes p.addrTransPort ++
      u64ToLeBytes p.nonce, by simp, ?_⟩
    simp only [VersionPayload.toLeBytes, List.append_assoc]
    rfl
  have cut : VersionPayload.Cut p.toLeBytes := by
    refine .inr (.inr (.inr ⟨_, 16, _, sixteen, by rw [shape, List.drop_left' length], .inl ?_⟩))
    simp only [List.length_append, i32_to_le_bytes_length, List.length_singleton]
    omega
  exact (@VersionPayload.from_le_bytes_panics 0 _ 0 (Nat.zero_le _) (Nat.zero_le _)).1.mpr cut

/-- The payload of the version message is read back exactly when the user agent has sixteen bytes. -/
theorem version_payload_round_trips_iff (config : Settings.Config) (socketAddr localIpAddr : SocketAddr)
    (timestamp : Int64) (nonce : UInt64) :
    (getVersionPayload config socketAddr localIpAddr timestamp nonce).RoundTrips ↔
      config.userAgent.toUTF8.toList.length = 16 := by
  have sixteen : (CompactSizeUint.new 16).Counts 16 := CompactSizeUint.new_counts (by decide)
  constructor
  · rintro ⟨stop, read⟩
    exact (Except.ok.inj (sixteen.2.symm.trans (VersionPayload.user_agent_length read))).symm
  · intro long
    exact VersionPayload.round_trips_of_counts (by rw [getVersionPayload, long]; exact sixteen)

/-- A configuration that is accepted, and its version message ends the thread of a peer. -/
theorem version_payload_cut :
    ∃ config, Settings.Config.fromReader (Settings.fileOf ((.userAgent, "/node/") :: Settings.agentless)) = .ok config ∧
      let payload := getVersionPayload config (.v4 54 89 113 236) (.v4 192 168 0 58) 1683223805 7
      ¬payload.RoundTrips ∧ VersionPayload.fromLeBytes payload.toLeBytes 0 = Outcome.panic := by
  obtain ⟨config, read, userAgent⟩ := @Settings.from_reader_user_agent "/node/" (by decide +kernel)
  have short : config.userAgent.toUTF8.toList.length < 11 := by
    rw [userAgent]
    decide +kernel
  have panics := short_user_agent_panics short (.v4 54 89 113 236) (.v4 192 168 0 58) 1683223805 7
  refine ⟨config, read, ?_, panics⟩
  rintro ⟨stop, round⟩
  rw [panics] at round
  cases round

end BitcoinNode
