import BitcoinNode.ReceiveLoop

/-! The payload of a version message. -/
namespace BitcoinNode

open Decoder

structure VersionPayload where
  version : Int32
  services : UInt64
  timestamp : Int64
  addrRecvService : UInt64
  addrRecvIp : U8Array 16
  addrRecvPort : UInt16
  addrTransService : UInt64
  addrTransIp : U8Array 16
  addrTransPort : UInt16
  nonce : UInt64
  userAgentBytes : CompactSizeUint
  userAgent : String
  startHeight : Int32
  relay : Bool

/-- A length that is not there at all stands for 0. -/
def getUserAgentBytesFromBytes : Decoder String CompactSizeUint := fun bytes counter =>
  match CompactSizeUint.unmarshalling bytes counter with
  | .ok (value, counter) => .ok (value, counter)
  | .error (.err _) => .ok (CompactSizeUint.new 0, counter)
  | .error .panic => Outcome.panic
  | .error .abort => Outcome.abort

/-- The vector is made before the slice is taken; a length too large for one is past the end. -/
def getUserAgentFromBytes (userAgentBytes : Nat) : Decoder String String := do
  let userAgentBytesVec ← take userAgentBytes
  result (fromUtf8 userAgentBytesVec)

/-- `bytes[counter]` -/
def getRelayFromBytes : Decoder String Bool := fun bytes counter => do
  let relayByte ← Outcome.index bytes counter
  return (relayByte == 1, counter)

namespace VersionPayload

def fromLeBytes : Decoder String VersionPayload := do
  let version ← array 4
  let services ← array 8
  let timestamp ← array 8
  let addrRecvService ← array 8
  let addrRecvIp ← array 16
  let addrRecvPort ← array 2
  let addrTransService ← array 8
  let addrTransIp ← array 16
  let addrTransPort ← array 2
  let nonce ← array 8
  let userAgentBytes ← getUserAgentBytesFromBytes
  let amount ← lift userAgentBytes.decodedValue
  let userAgent ← getUserAgentFromBytes amount
  let startHeight ← array 4
  let relay ← getRelayFromBytes
  return ⟨i32FromLeBytes version, u64FromLeBytes services, i64FromLeBytes timestamp,
    u64FromLeBytes addrRecvService, addrRecvIp, u16FromBeBytes addrRecvPort,
    u64FromLeBytes addrTransService, addrTransIp, u16FromBeBytes addrTransPort,
    u64FromLeBytes nonce, userAgentBytes, userAgent, i32FromLeBytes startHeight, relay⟩

end VersionPayload

end BitcoinNode
