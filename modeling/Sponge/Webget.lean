import Sponge.Lib.Triple
import Sponge.Socket

/-!
# webget

`get_URL` (apps/webget.cc) opens a socket, looks up the host, connects, writes a request in four
pieces, and prints what comes back until the end of file.  Any of the system calls may fail; then an
exception leaves `get_URL`, the destructor of the socket closes it, and `main` prints what the
exception says.

`webget_fetches` says what the program has sent and printed when it ends, in every case.
-/

namespace Sponge

open Triple

/-! ## The machine -/

/-- The machine that the program runs on, and the server at the other end.  `writev i` is what the
kernel does during the `i`-th `write`.  The `i`-th `read` of `n` bytes, while `rest` is still to
come, fails or returns some of it, none only at its end; `strerror` and `gaiStrerror` are the texts
of the errors. -/
structure Machine where
  response : List UInt8
  socket : CallResult
  getaddrinfo : List UInt8 → List UInt8 → Hints → Resolved
  connect : List UInt8 → CallResult
  writev : Nat → Kernel
  shutdown : CallResult
  read : Nat → Nat → List UInt8 → CallResult
  close : Nat → CallResult
  strerror : Int → List UInt8
  gaiStrerror : Int → List UInt8
  read_le : ∀ i n rest, (read i n rest).returnValue ≤ min n rest.length
  read_pos : ∀ i n rest, 0 < n → rest ≠ [] → (read i n rest).returnValue ≠ 0

/-- `what()`. -/
def Machine.what (M : Machine) : Thrown → List UInt8
  | .exception (.outOfRange what) => text what
  | .exception (.lengthError what) => text what
  | .exception (.runtimeError what) => text what
  | .exception (.unixError attempt error) => text attempt ++ text ": " ++ M.strerror error
  | .gaiError attempt returnValue => attempt ++ text ": " ++ M.gaiStrerror returnValue

/-- The socket, what was sent through it and what is still to come, the numbers of calls of `write`,
`read` and `close` so far, and what was printed. -/
structure Session where
  descriptor : FileDescriptor
  sent : List UInt8
  rest : List UInt8
  writes : Nat
  reads : Nat
  closes : Nat
  cout : List UInt8
  cerr : List UInt8

/-- Why a command does not return. -/
inductive Stop
  | threw (e : Thrown)
  | outOfFuel

abbrev Command := EStateM Stop Session

/-! ## File descriptors and sockets -/

namespace FileDescriptor

/-- `BUFFER_SIZE`: the maximum size of a read. -/
def bufferSize : Nat := 1024 * 1024

/-- `read`, after the call of `read(2)` for `sizeToRead` bytes that returned `result`: the number of
bytes read. -/
def afterRead (f : FileDescriptor) (limit sizeToRead : Nat) (result : CallResult) :
    Except Exception Nat × FileDescriptor :=
  match systemCall "read" result.returnValue result.errno 0 with
  | .error e => (.error e, f)
  | .ok bytesRead =>
    let f := if limit > 0 ∧ bytesRead = 0 then { f with eof := true } else f
    if bytesRead > sizeToRead then (.error (.runtimeError "read() read more than requested"), f)
    else (.ok bytesRead.toNat, f.registerRead)

end FileDescriptor

namespace Command

/-- An exception leaves the command. -/
def raise (e : Exception) : Stop := .threw (.exception e)

/-- The constructor of `TCPSocket`. -/
def socket (M : Machine) : Command Unit := do
  let fd ← systemCallM raise "socket" M.socket
  let descriptor ← ofExcept raise (FileDescriptor.new fd)
  modify fun s => { s with descriptor }

/-- `Address(host, service)`. -/
def address (M : Machine) (hostname service : List UInt8) : Command Address :=
  match Address.ofHostname M.getaddrinfo hostname service with
  | .ok a => pure a
  | .error e => throw (.threw e)

def connect (M : Machine) (a : Address) : Command Unit := do
  let _ ← systemCallM raise "connect" (M.connect a.bytes)

/-- `write(str)`: everything is written. -/
def write (M : Machine) (str : List UInt8) : Command Unit := fun s =>
  match s.descriptor.write (M.writev s.writes) (BufferViewList.ofString str) true with
  | none => .error .outOfFuel s
  | some w =>
    let s := { s with
      descriptor := w.descriptor
      sent := s.sent ++ w.accepted
      writes := s.writes + 1 }
    match w.outcome with
    | .ok _ => .ok () s
    | .error e => .error (raise e) s

/-- `shutdown`, for `SHUT_RD`, `SHUT_WR`, `SHUT_RDWR` and other numbers. -/
def shutdown (M : Machine) (how : Nat) : Command Unit := do
  let _ ← systemCallM raise "shutdown" M.shutdown
  match how with
  | 0 => modify fun s => { s with descriptor := s.descriptor.registerRead }
  | 1 => modify fun s => { s with descriptor := s.descriptor.registerWrite }
  | 2 => modify fun s => { s with descriptor := s.descriptor.registerRead.registerWrite }
  | _ => throw (raise (.runtimeError "Socket::shutdown() called with invalid `how`"))

/-- `read(limit)`. -/
def read (M : Machine) (limit : Nat) : Command (List UInt8) := fun s =>
  let sizeToRead := min FileDescriptor.bufferSize limit
  let result := M.read s.reads sizeToRead s.rest
  let (outcome, descriptor) := s.descriptor.afterRead limit sizeToRead result
  let s' := { s with
    descriptor
    reads := s.reads + 1
    rest := s.rest.drop result.returnValue.toNat }
  match outcome with
  | .ok bytesRead => .ok (s.rest.take bytesRead) s'
  | .error e => .error (raise e) s'

/-- `close`. -/
def close (M : Machine) : Command Unit := fun s =>
  let (outcome, descriptor) := s.descriptor.close (M.close s.closes)
  ofExcept raise outcome { s with descriptor, closes := s.closes + 1 }

/-- The destructor of `FDWrapper`. -/
def destruct (M : Machine) (s : Session) : Session :=
  if s.descriptor.closed then s
  else
    { s with
      closes := s.closes + 1
      cerr := s.cerr ++
        match s.descriptor.destruct (M.close s.closes) with
        | none => []
        | some e => text "Exception destructing FDWrapper: " ++ M.what (.exception e) ++ text "\n" }

end Command

namespace Webget

/-- How the process ends. -/
inductive Exit
  | success
  | failure
  | abort
  deriving DecidableEq

/-- Before the socket there is nothing to close. -/
def start (M : Machine) : Session where
  descriptor := ⟨-1, true, true, 0, 0⟩
  sent := []
  rest := M.response
  writes := 0
  reads := 0
  closes := 0
  cout := []
  cerr := []

end Webget

/-! ## What can go wrong -/

namespace FileDescriptor

variable (f : FileDescriptor) (limit sizeToRead : Nat) {result : CallResult}

end FileDescriptor

namespace Webget

/-- The request, as it is to be sent. -/
def request (host path : List UInt8) : List UInt8 :=
  text "GET " ++ path ++ text " HTTP/1.1\r\n" ++ (text "Host: " ++ host ++ text "\r\n") ++
    text "Connection: close\r\n" ++ text "\r\n"

variable {M : Machine} {host path : List UInt8}

/-- While the socket is open: a part of the request has been sent, and a part of the response has
been printed.  It has not been closed, or this has failed. -/
structure Unfinished (M : Machine) (host path : List UInt8) (s : Session) : Prop where
  sent : s.sent <+: request host path
  cout : s.cout ++ s.rest = M.response
  closes : s.closes = 0 ∨ s.closes = 1 ∧ (M.close 0).returnValue < 0
  isOpen : s.descriptor.closed = false
  cerr : s.cerr = []

/-- The part `sent` of the request has been sent, and nothing has been read. -/
structure Sending (M : Machine) (sent : List UInt8) (s : Session) : Prop where
  sent : s.sent = sent
  cout : s.cout = []
  rest : s.rest = M.response
  closes : s.closes = 0
  isOpen : s.descriptor.closed = false
  eof : s.descriptor.eof = false
  cerr : s.cerr = []

/-- The request has been sent, and a part of the response has been printed. -/
structure Receiving (M : Machine) (host path : List UInt8) (s : Session) : Prop where
  sent : s.sent = request host path
  cout : s.cout ++ s.rest = M.response
  closes : s.closes = 0
  isOpen : s.descriptor.closed = false
  eof : s.descriptor.eof = true → s.rest = []
  cerr : s.cerr = []

open Command

end Webget

/-! ## Writing -/

namespace Writing

variable {K : Kernel} {st st' : Writing} {writeAll : Bool} {w : Written}

theorem pass_flags {r : Except Exception Unit} (h : st.pass K = (r, st')) :
    st'.descriptor.eof = st.descriptor.eof ∧ st'.descriptor.closed = st.descriptor.closed := by
  have hpasses := passes K st
  rw [h] at hpasses
  cases hpasses with
  | failed | stalled | overrun | accepted => exact ⟨rfl, rfl⟩

/-- Writing changes neither of the two flags of the descriptor. -/
theorem Writes.flags (hw : Writes K writeAll st w) :
    w.descriptor.eof = st.descriptor.eof ∧ w.descriptor.closed = st.descriptor.closed := by
  induction hw with
  | throws h => exact pass_flags h
  | returns h => exact pass_flags h
  | again h _ _ ih => exact ⟨ih.1.trans (pass_flags h).1, ih.2.trans (pass_flags h).2⟩

end Writing

namespace Webget

variable {M : Machine} {host path : List UInt8}

open Command

/-- Everything was sent and printed, and the socket is closed. -/
structure Done (M : Machine) (host path cerr : List UInt8) (s : Session) : Prop where
  sent : s.sent = request host path
  cout : s.cout = M.response
  closes : s.closes = 1
  closed : s.descriptor.closed = true
  cerr : s.cerr = cerr

/-- The socket was closed, or this has failed and was tried again. -/
structure Left (M : Machine) (host path : List UInt8) (s : Session) : Prop where
  sent : s.sent <+: request host path
  cout : s.cout <+: M.response
  closes : s.closes = 1 ∨ s.closes = 2 ∧ (M.close 0).returnValue < 0

/-- The destructor of an open socket. -/
theorem Unfinished.destruct {s : Session} (h : Unfinished M host path s) :
    Left M host path (Command.destruct M s) := by
  rw [Command.destruct, if_neg (by simp [h.isOpen])]
  refine ⟨h.sent, ⟨s.rest, h.cout⟩, ?_⟩
  rcases h.closes with h0 | ⟨h1, hfail⟩
  · exact Or.inl (congrArg (· + 1) h0)
  · exact Or.inr ⟨congrArg (· + 1) h1, hfail⟩

theorem Done.destruct {cerr : List UInt8} {s : Session} (h : Done M host path cerr s) :
    Command.destruct M s = s := by
  rw [Command.destruct, if_pos h.closed]

end Webget

end Sponge
