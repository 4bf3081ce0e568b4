import Sponge.TCPReceiver
import Sponge.TCPSender

/-!
# State summaries

`TCPState::state_summary` (tcp_helpers/tcp_state.hh, tcp_state.cc).  The summaries are the
constants of the two namespaces `TCPReceiverStateSummary` and `TCPSenderStateSummary`; the source
returns their texts.
-/

namespace Sponge

inductive TCPReceiverStateSummary
  | error
  | listen
  | synRecv
  | finRecv
  deriving DecidableEq, Repr

def TCPReceiverStateSummary.text : TCPReceiverStateSummary → String
  | .error => "error (connection was reset)"
  | .listen => "waiting for SYN: ackno is empty"
  | .synRecv => "SYN received (ackno exists), and input to stream hasn't ended"
  | .finRecv => "input to stream has ended"

inductive TCPSenderStateSummary
  | error
  | closed
  | synSent
  | synAcked
  | finSent
  | finAcked
  deriving DecidableEq, Repr

def TCPSenderStateSummary.text : TCPSenderStateSummary → String
  | .error => "error (connection was reset)"
  | .closed => "waiting for stream to begin (no SYN sent)"
  | .synSent => "stream started but nothing acknowledged"
  | .synAcked => "stream ongoing"
  | .finSent => "stream finished (FIN sent) but not fully acknowledged"
  | .finAcked => "stream finished and fully acknowledged"

def TCPReceiver.stateSummary (t : TCPReceiver) : TCPReceiverStateSummary :=
  if t.streamOut.error then .error
  else if t.ackno.isNone then .listen
  else if t.streamOut.inputEnded then .finRecv
  else .synRecv

def TCPSender.stateSummary (s : TCPSender) : TCPSenderStateSummary :=
  if s.stream.error then .error
  else if s.nextSeqnoAbsolute = 0 then .closed
  else if s.nextSeqnoAbsolute = s.bytesInFlight then .synSent
  else if ¬ s.stream.eof then .synAcked
  else if s.nextSeqnoAbsolute < s.stream.bytesWritten + 2 then .synAcked
  else if s.bytesInFlight ≠ 0 then .finSent
  else .finAcked

/-- In the last state the FIN is out and nothing is in flight. -/
theorem TCPSender.of_stateSummary_finAcked {s : TCPSender} (h : s.stateSummary = .finAcked) :
    s.stream.bytesWritten + 2 ≤ s.nextSeqnoAbsolute ∧ s.bytesInFlight = 0 := by
  unfold stateSummary at h
  split_ifs at h with h1 h2 h3 h4 h5 h6
  exact ⟨by omega, by simpa using h6⟩

end Sponge
