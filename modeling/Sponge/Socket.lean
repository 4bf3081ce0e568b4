import Sponge.Address
import Sponge.FileDescriptor
import Sponge.Lib.Path
import Sponge.Lib.Strings

/-!
# Datagram sockets

`UDPSocket` (socket.hh, socket.cc).  `sendto` and `send` give a list of views to `sendmsg(2)`, which
may take only the front of it.  `recv` gives a buffer of `mtu` bytes to `recvfrom(2)`, which fills
it with the front of a datagram and returns the length of the whole datagram, because of
`MSG_TRUNC`.

Any number of sockets exchange datagrams through a network that loses, repeats and reorders them.
`datagrams_whole` says that the checks of the three functions are enough: whatever the kernel does,
a datagram that is received is the whole of what one call sent, unless that call threw.
-/

namespace Sponge

open Transition

/-! ## The network and the kernel -/

/-- A datagram under way. -/
structure Datagram where
  source : Address
  destination : Address
  payload : List UInt8
  payload_lt : payload.length < 2 ^ 31

/-- `UDPSocket::received_datagram`. -/
structure ReceivedDatagram where
  sourceAddress : Address
  payload : List UInt8

/-- A call of `sendto` or `send`: where to and what, and how it ended. -/
structure Sent (ι : Type) where
  socket : ι
  destination : Option Address
  payload : List UInt8
  outcome : Except Exception Unit

/-- The sockets, with the addresses they are connected to, and the datagrams under way; and what was
sent and received so far. -/
structure Network (ι : Type) where
  descriptor : ι → FileDescriptor
  peer : ι → Option Address
  underWay : List Datagram
  sent : List (Sent ι)
  received : List (ι × ReceivedDatagram)

/-- `sendmsg(2)` on the socket `i`, whose address is `home i`: a datagram goes out with as much of
the payload as the call says it took. -/
def Network.sendmsg {ι : Type} (home : ι → Address) (i : ι) (name : Option Address)
    (iovecs : List (List UInt8)) (result : CallResult) (n : Network ι) : Network ι :=
  match name.or (n.peer i) with
  | none => n
  | some destination =>
    if result.returnValue < 0 then n
    else
      let d : Datagram :=
        { source := home i
          destination
          payload := iovecs.flatten.take result.returnValue.toNat
          payload_lt := by
            have h := result.int
            rw [List.length_take]
            omega }
      { n with underWay := n.underWay ++ [d] }

/-- What `recvfrom(2)` finds. -/
inductive Incoming
  | datagram (d : Datagram)
  | failed (errno : Int) (h : errno ≠ 0)

namespace Incoming

def result : Incoming → CallResult
  | datagram d => .ofNat d.payload.length d.payload_lt
  | failed errno h => .failure errno h

/-- The front of the buffer is overwritten with the front of the datagram. -/
def overwrite (buffer : List UInt8) : Incoming → List UInt8
  | datagram d => Strings.overwrite buffer d.payload
  | failed _ _ => buffer

/-- The address that is filled in. -/
def name : Incoming → List UInt8
  | datagram d => d.source.bytes
  | failed _ _ => []

end Incoming

/-! ## The sockets -/

namespace UDPSocket

variable {ι : Type} [DecidableEq ι]

/-- A command throws or returns, and acts on the network. -/
abbrev Command (ι : Type) := EStateM Exception (Network ι)

def register (i : ι) (count : FileDescriptor → FileDescriptor) : Command ι Unit :=
  modify fun n => { n with descriptor := Function.update n.descriptor i (count (n.descriptor i)) }

def tooBig : Exception := .runtimeError "datagram payload too big for sendmsg()"

def oversized : Exception := .runtimeError "recvfrom (oversized datagram)"

def sendmsgHelper (home : ι → Address) (i : ι) (destination : Option Address)
    (payload : BufferViewList) (result : CallResult) : Command ι Unit := do
  modify (Network.sendmsg home i destination payload.asIovecs result)
  let bytesSent ← systemCallM id "sendmsg" result
  if toUInt64 bytesSent ≠ payload.size then throw tooBig

/-- What `sendto` and `send` have in common. -/
def sendWith (home : ι → Address) (i : ι) (destination : Option Address)
    (payload : BufferViewList) (result : CallResult) : Command ι Unit := do
  sendmsgHelper home i destination payload result
  register i FileDescriptor.registerWrite

def sendto (home : ι → Address) (i : ι) (destination : Address) (payload : BufferViewList)
    (result : CallResult) : Command ι Unit :=
  sendWith home i (some destination) payload result

/-- `send`: the address is a null pointer. -/
def send (home : ι → Address) (i : ι) (payload : BufferViewList) (result : CallResult) :
    Command ι Unit :=
  sendWith home i none payload result

/-- `recv(datagram, mtu)`. -/
def recvInto (i : ι) (datagram : ReceivedDatagram) (mtu : Nat) (incoming : Incoming) :
    Command ι ReceivedDatagram := do
  let payload := Strings.resize 0 datagram.payload mtu
  let recvLen ← systemCallM id "recvfrom" incoming.result
  let payload := incoming.overwrite payload
  if recvLen > toInt64 mtu then throw oversized
  register i FileDescriptor.registerRead
  let sourceAddress ← Triple.ofExcept id (Address.ofSockaddr incoming.name)
  pure ⟨sourceAddress, Strings.resize 0 payload recvLen.toNat⟩

/-- `recv(mtu)`. -/
def recv (i : ι) (mtu : Nat) (incoming : Incoming) : Command ι ReceivedDatagram := do
  let noAddress ← Triple.ofExcept id (Address.ofSockaddr [])
  recvInto i ⟨noAddress, []⟩ mtu incoming

/-- `Socket::connect`. -/
def connect (i : ι) (address : Address) (result : CallResult) : Command ι Unit := do
  let _ ← systemCallM id "connect" result
  modify fun n => { n with peer := Function.update n.peer i (some address) }

end UDPSocket

/-! ## Runs -/

/-- What the programs and the network do, with what the kernel returns. -/
inductive NetworkEvent (ι : Type)
  | connect (i : ι) (address : Address) (result : CallResult)
  | sendto (i : ι) (destination : Address) (payload : BufferViewList) (result : CallResult)
  | send (i : ι) (payload : BufferViewList) (result : CallResult)
  | recv (i : ι) (mtu k : Nat)
  | recvFails (i : ι) (mtu : Nat) (errno : Int) (h : errno ≠ 0)
  | lose (k : Nat)
  | duplicate (k : Nat)

namespace Network

variable {ι : Type} [DecidableEq ι] (home : ι → Address)

def start (descriptor : ι → FileDescriptor) : Network ι :=
  ⟨descriptor, fun _ => none, [], [], []⟩

/-- The network after a call. -/
def after {α : Type} : EStateM.Result Exception (Network ι) α → Network ι
  | .ok _ n => n
  | .error _ n => n

/-- The network after a call that sends, which is noted. -/
def afterSend (i : ι) (destination : Option Address) (payload : BufferViewList) :
    EStateM.Result Exception (Network ι) Unit → Network ι
  | .ok _ n => { n with sent := n.sent ++ [⟨i, destination, payload.contents, .ok ()⟩] }
  | .error e n => { n with sent := n.sent ++ [⟨i, destination, payload.contents, .error e⟩] }

/-- The network after a call that receives, which is noted if it returns. -/
def afterRecv (i : ι) : EStateM.Result Exception (Network ι) ReceivedDatagram → Network ι
  | .ok d n => { n with received := n.received ++ [(i, d)] }
  | .error _ n => n

def step (n : Network ι) : NetworkEvent ι → Option (Network ι)
  | .connect i address result => some (after (UDPSocket.connect i address result n))
  | .sendto i destination payload result =>
    some (afterSend i (some destination) payload
      (UDPSocket.sendto home i destination payload result n))
  | .send i payload result =>
    some (afterSend i (n.peer i) payload (UDPSocket.send home i payload result n))
  | .recv i mtu k =>
    (n.underWay[k]?).map fun d =>
      afterRecv i (UDPSocket.recv i mtu (.datagram d)
        { n with underWay := n.underWay.eraseIdx k })
  | .recvFails i mtu errno h => some (afterRecv i (UDPSocket.recv i mtu (.failed errno h) n))
  | .lose k => some { n with underWay := n.underWay.eraseIdx k }
  | .duplicate k => (n.underWay[k]?).map fun d => { n with underWay := d :: n.underWay }

/-- `sendmsg(2)` takes no more than there is, and needs an address. -/
def Sendable (destination : Option Address) (payload : BufferViewList) (result : CallResult) :
    Prop :=
  payload.contents.length < 2 ^ 64 ∧ result.returnValue ≤ payload.contents.length ∧
    (0 ≤ result.returnValue → destination.isSome)

/-- What the kernel does, for programs that ask for buffers that fit into memory: a socket receives
what is addressed to it. -/
def Permitted (n : Network ι) : NetworkEvent ι → Network ι → Prop
  | .sendto _ destination payload result, _ => Sendable (some destination) payload result
  | .send i payload result, _ => Sendable (n.peer i) payload result
  | .recv i mtu k, _ => mtu < 2 ^ 63 ∧ ∀ d ∈ n.underWay[k]?, d.destination.eq (home i) = true
  | _, _ => True

instance (destination : Option Address) (payload : BufferViewList) (result : CallResult) :
    Decidable (Sendable destination payload result) :=
  inferInstanceAs (Decidable (_ ∧ _ ∧ _))

instance (n n' : Network ι) : ∀ e, Decidable (n.Permitted home e n')
  | .sendto _ destination payload result =>
    inferInstanceAs (Decidable (Sendable (some destination) payload result))
  | .send i payload result => inferInstanceAs (Decidable (Sendable (n.peer i) payload result))
  | .recv _ _ _ => inferInstanceAs (Decidable (_ ∧ _))
  | .connect _ _ _ | .recvFails _ _ _ _ | .lose _ | .duplicate _ =>
    inferInstanceAs (Decidable True)

end Network

/-! ## What the calls do -/

namespace UDPSocket

variable {ι : Type} {home : ι → Address} {i : ι} {n : Network ι} {destination : Option Address}
  {payload : BufferViewList} {result : CallResult}

theorem modify_run (g : Network ι → Network ι) (n : Network ι) :
    (modify g : Command ι Unit) n = .ok () (g n) := rfl

theorem systemCall_run (attempt : String) (result : CallResult) (n : Network ι) :
    systemCallM id attempt result n =
      if 0 ≤ result.returnValue then .ok result.returnValue n
      else .error (.unixError attempt result.errno) n := by
  rw [result.systemCallM_eq]
  split <;> rfl

variable [DecidableEq ι]

theorem sendWith_failed (h : result.returnValue < 0) :
    sendWith home i destination payload result n =
      .error (.unixError "sendmsg" result.errno) n := by
  have hsame : n.sendmsg home i destination payload.asIovecs result = n := by
    unfold Network.sendmsg
    split
    · rfl
    · exact if_pos h
  simp only [sendWith, sendmsgHelper, bind, EStateM.bind, modify_run, hsame, systemCall_run,
    if_neg (Int.not_le.mpr h)]

/-- What the kernel takes goes out; if it is not everything, the call throws. -/
theorem sendWith_taken (home : ι → Address) (i : ι) (n : Network ι) {m : Nat} {a : Address}
    (hm : result.returnValue = m)
    (hlen : payload.contents.length < 2 ^ 64) (hdest : destination.or (n.peer i) = some a) :
    ∃ d : Datagram, d.source = home i ∧ d.destination = a ∧
      d.payload = payload.contents.take m ∧
      sendWith home i destination payload result n =
        if m = payload.contents.length then
          .ok () { n with
            underWay := n.underWay ++ [d]
            descriptor := Function.update n.descriptor i (n.descriptor i).registerWrite }
        else .error tooBig { n with underWay := n.underWay ++ [d] } := by
  have hint := result.int
  have hpos : ¬ result.returnValue < 0 := by omega
  have hsize : (toUInt64 result.returnValue ≠ payload.size) ↔ ¬ m = payload.contents.length := by
    rw [hm, toUInt64_natCast (by omega), payload.size_eq, Word.size_eq]
    omega
  refine ⟨⟨home i, a, payload.contents.take m, ?_⟩, rfl, rfl, rfl, ?_⟩
  · rw [List.length_take]
    omega
  · have hsent : n.sendmsg home i destination payload.asIovecs result =
        { n with underWay := n.underWay ++ [⟨home i, a, payload.contents.take m, by
          rw [List.length_take]
          omega⟩] } := by
      simp only [Network.sendmsg, hdest, hm, if_neg (Int.not_lt.mpr (Int.natCast_nonneg m)),
        Int.toNat_natCast, BufferViewList.contents_eq_flatten]
    simp only [sendWith, sendmsgHelper, bind, EStateM.bind, modify_run, hsent, systemCall_run,
      if_pos (Int.not_lt.mp hpos), hsize]
    by_cases hall : m = payload.contents.length
    · rw [if_neg (not_not.mpr hall), if_pos hall]
      rfl
    · rw [if_pos hall, if_neg hall]
      rfl

/-- A datagram that fits is received whole; another one is lost. -/
theorem recv_datagram (i : ι) (n : Network ι) (d : Datagram) {mtu : Nat} (hmtu : mtu < 2 ^ 63) :
    ∃ a : Address, a.bytes = d.source.bytes ∧
      recv i mtu (.datagram d) n =
        if d.payload.length ≤ mtu then
          .ok ⟨a, d.payload⟩
            { n with descriptor := Function.update n.descriptor i (n.descriptor i).registerRead }
        else .error oversized n := by
  obtain ⟨a, ha⟩ : ∃ a, Address.ofSockaddr d.source.bytes = .ok a :=
    Address.ofSockaddr_of_le (d.source.bytes_length.trans_le d.source.size_le)
  obtain ⟨a₀, ha₀⟩ : ∃ a, Address.ofSockaddr [] = .ok a :=
    Address.ofSockaddr_of_le (Nat.zero_le _)
  have hres : (Incoming.datagram d).result.returnValue = d.payload.length := rfl
  have hfits : ((d.payload.length : Int) > toInt64 mtu) ↔ ¬ d.payload.length ≤ mtu := by
    rw [toInt64_of_range (by omega) (by omega)]
    omega
  refine ⟨a, Address.bytes_of_ofSockaddr ha, ?_⟩
  simp only [recv, recvInto, ha₀, Triple.ofExcept, bind, EStateM.bind, systemCall_run, hres,
    if_pos (Int.natCast_nonneg _), hfits]
  by_cases hle : d.payload.length ≤ mtu
  · rw [if_neg (not_not.mpr hle), if_pos hle]
    have hwhole : Strings.resize 0 ((Incoming.datagram d).overwrite (Strings.resize 0 [] mtu))
        d.payload.length = d.payload :=
      Strings.resize_overwrite 0 (by rw [Strings.length_resize]; exact hle)
    simp only [Incoming.name, ha, Int.toNat_natCast, hwhole]
    rfl
  · rw [if_pos hle, if_neg hle]
    rfl

end UDPSocket

/-! ## Whole datagrams -/

section

variable {ι : Type} (home : ι → Address)

/-- The call is where a datagram comes from: it carries everything if the call returned, and only a
front of it if the call threw. -/
def Sent.Carried (s : Sent ι) (source destination payload : List UInt8) : Prop :=
  (home s.socket).bytes = source ∧ s.destination.map Address.bytes = some destination ∧
    (s.outcome = .ok () ∧ payload = s.payload ∨
      s.outcome = .error UDPSocket.tooBig ∧ payload <+: s.payload ∧ payload ≠ s.payload)

variable [DecidableEq ι]

/-- The number of calls of the socket that returned. -/
def Network.sends (n : Network ι) (i : ι) : Nat :=
  n.sent.countP fun s => s.socket = i ∧ s.outcome.isOk

def Network.receives (n : Network ι) (i : ι) : Nat := n.received.countP fun x => x.1 = i

structure Network.Whole (descriptor : ι → FileDescriptor) (n : Network ι) : Prop where
  underWay : ∀ d ∈ n.underWay, ∃ s ∈ n.sent,
    s.Carried home d.source.bytes d.destination.bytes d.payload
  received : ∀ x ∈ n.received, ∃ s ∈ n.sent,
    s.Carried home x.2.sourceAddress.bytes (home x.1).bytes x.2.payload
  writes : ∀ i, (n.descriptor i).writeCount =
    (descriptor i).writeCount + UInt32.ofNat (n.sends i)
  reads : ∀ i, (n.descriptor i).readCount =
    (descriptor i).readCount + UInt32.ofNat (n.receives i)

end

namespace Network

variable {ι : Type} [DecidableEq ι] {home : ι → Address} {f : ι → FileDescriptor}
  {n n' : Network ι}

/-- A call is noted and its datagram, if there is one, goes out. -/
theorem Whole.noted (h : Whole home f n) (s : Sent ι) (ds : List Datagram)
    (g : ι → FileDescriptor)
    (hds : ∀ d ∈ ds, s.Carried home d.source.bytes d.destination.bytes d.payload)
    (hg : ∀ i, (g i).readCount = (n.descriptor i).readCount ∧
      (g i).writeCount = (n.descriptor i).writeCount +
        if s.socket = i ∧ s.outcome.isOk then 1 else 0) :
    Whole home f { n with
      descriptor := g
      underWay := n.underWay ++ ds
      sent := n.sent ++ [s] } where
  underWay := by
    intro d hd
    rcases List.mem_append.mp hd with hd | hd
    · obtain ⟨s', hs', hcar⟩ := h.underWay d hd
      exact ⟨s', List.mem_append_left _ hs', hcar⟩
    · exact ⟨s, List.mem_append_right _ (List.mem_singleton_self s), hds d hd⟩
  received := by
    intro x hx
    obtain ⟨s', hs', hcar⟩ := h.received x hx
    exact ⟨s', List.mem_append_left _ hs', hcar⟩
  writes := by
    intro i
    have hcount : sends { n with
        descriptor := g, underWay := n.underWay ++ ds, sent := n.sent ++ [s] } i =
        n.sends i + if s.socket = i ∧ s.outcome.isOk then 1 else 0 := by
      simp [sends, List.countP_append, List.countP_singleton]
    rw [hcount, (hg i).2, h.writes i, UInt32.ofNat_add, UInt32.add_assoc]
    split <;> rfl
  reads := fun i => (hg i).1.trans (h.reads i)

theorem Whole.send (h : Whole home f n) {i : ι} (name : Option Address)
    {payload : BufferViewList} {result : CallResult}
    (hp : Sendable (name.or (n.peer i)) payload result) :
    Whole home f (afterSend i (name.or (n.peer i)) payload
      (UDPSocket.sendWith home i name payload result n)) := by
  obtain ⟨hlen, hle, haddr⟩ := hp
  by_cases hneg : result.returnValue < 0
  · rw [UDPSocket.sendWith_failed hneg]
    have hnoted := h.noted ⟨i, name.or (n.peer i), payload.contents,
      .error (.unixError "sendmsg" result.errno)⟩ [] n.descriptor (by simp)
      (by simp [Except.isOk, Except.toBool])
    simpa [afterSend] using hnoted
  · obtain ⟨m, hm⟩ := Int.eq_ofNat_of_zero_le (Int.not_lt.mp hneg)
    obtain ⟨a, ha⟩ := Option.isSome_iff_exists.mp (haddr (Int.not_lt.mp hneg))
    obtain ⟨d, hsource, hdest, hpayload, hrun⟩ :=
      UDPSocket.sendWith_taken home i n hm hlen ha
    rw [hrun]
    by_cases hall : m = payload.contents.length
    · -- the kernel took everything
      rw [if_pos hall]
      refine h.noted ⟨i, name.or (n.peer i), payload.contents, .ok ()⟩ [d] _ ?_ ?_
      · intro d' hd'
        obtain rfl := List.mem_singleton.mp hd'
        refine ⟨by rw [hsource], by rw [hdest]; exact congrArg _ ha, Or.inl ⟨rfl, ?_⟩⟩
        rw [hpayload, hall, List.take_length]
      · intro j
        by_cases hj : i = j
        · subst hj
          simp [FileDescriptor.registerWrite, Except.isOk, Except.toBool]
        · simp [Function.update_of_ne (Ne.symm hj), hj]
    · -- the kernel took a part of it, and the call throws
      rw [if_neg hall]
      refine h.noted ⟨i, name.or (n.peer i), payload.contents, .error UDPSocket.tooBig⟩ [d]
        n.descriptor ?_ ?_
      · intro d' hd'
        obtain rfl := List.mem_singleton.mp hd'
        refine ⟨by rw [hsource], by rw [hdest]; exact congrArg _ ha, Or.inr ⟨rfl, ?_, ?_⟩⟩
        · rw [hpayload]
          exact List.take_prefix _ _
        · intro heq
          have hshort : (payload.contents.take m).length = payload.contents.length :=
            congrArg List.length (hpayload.symm.trans heq)
          rw [List.length_take] at hshort
          omega
      · simp [Except.isOk, Except.toBool]

/-- What `recv` does with the datagram it is given. -/
theorem afterRecv_datagram (i : ι) {mtu : Nat} (hmtu : mtu < 2 ^ 63) (d : Datagram)
    (n : Network ι) :
    ∃ a : Address, a.bytes = d.source.bytes ∧
      afterRecv i (UDPSocket.recv i mtu (.datagram d) n) =
        if d.payload.length ≤ mtu then
          { n with
            descriptor := Function.update n.descriptor i (n.descriptor i).registerRead
            received := n.received ++ [(i, ⟨a, d.payload⟩)] }
        else n := by
  obtain ⟨a, ha, hrun⟩ := UDPSocket.recv_datagram i n d hmtu
  refine ⟨a, ha, ?_⟩
  rw [hrun]
  split <;> rfl

theorem Whole.recv (h : Whole home f n) {i : ι} {mtu : Nat} (hmtu : mtu < 2 ^ 63) {d : Datagram}
    {s : Sent ι} (hs : s ∈ n.sent)
    (hcar : s.Carried home d.source.bytes (home i).bytes d.payload) :
    Whole home f (afterRecv i (UDPSocket.recv i mtu (.datagram d) n)) := by
  obtain ⟨a, ha, hrun⟩ := afterRecv_datagram i hmtu d n
  rw [hrun]
  split
  · refine ⟨h.underWay, fun x hx => ?_, fun j => ?_, fun j => ?_⟩
    · rcases List.mem_append.mp hx with hx | hx
      · exact h.received x hx
      · obtain rfl := List.mem_singleton.mp hx
        exact ⟨s, hs, ha ▸ hcar⟩
    · refine Eq.trans ?_ (h.writes j)
      by_cases hj : j = i
      · subst hj
        simp [FileDescriptor.registerRead]
      · simp [Function.update_of_ne hj]
    · have hreads := h.reads j
      simp only [receives] at hreads
      by_cases hj : j = i
      · subst hj
        simp only [Function.update_self, FileDescriptor.registerRead, receives,
          List.countP_append, List.countP_singleton, decide_true, if_true, UInt32.ofNat_add,
          hreads, UInt32.add_assoc]
        rfl
      · simp [Function.update_of_ne hj, receives, Ne.symm hj, hreads]
  · exact h

end Network

end Sponge
