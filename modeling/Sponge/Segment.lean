import Sponge.WrappingIntegers

/-!
# TCP headers and segments

`TCPConfig`, `TCPHeader` and `TCPSegment` (tcp_helpers/tcp_config.hh, tcp_header.hh,
tcp_segment.hh), with the defaults of the source.  A payload is the byte string its `Buffer`
holds.
-/

namespace Sponge

namespace TCPConfig

/-- Largest payload that fits in either an IPv4 or a UDP datagram. -/
def maxPayloadSize : Nat := 1452

end TCPConfig

namespace TCPHeader

/-- `TCPHeader::LENGTH`, the header length without options. -/
def length : Nat := 20

end TCPHeader

structure TCPHeader where
  sport : UInt16 := 0
  dport : UInt16 := 0
  seqno : WrappingInt32 := ⟨0⟩
  ackno : WrappingInt32 := ⟨0⟩
  doff : UInt8 := UInt8.ofNat (TCPHeader.length / 4)
  urg : Bool := false
  ack : Bool := false
  psh : Bool := false
  rst : Bool := false
  syn : Bool := false
  fin : Bool := false
  win : UInt16 := 0
  cksum : UInt16 := 0
  uptr : UInt16 := 0
  deriving DecidableEq, Repr

structure TCPSegment where
  header : TCPHeader := {}
  payload : List UInt8 := []
  deriving DecidableEq, Repr

/-- Payload bytes, plus one for SYN, plus one for FIN. -/
def TCPSegment.lengthInSequenceSpace (seg : TCPSegment) : Nat :=
  seg.payload.length + (if seg.header.syn then 1 else 0) + (if seg.header.fin then 1 else 0)

end Sponge
