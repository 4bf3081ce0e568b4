import Sponge.Lib.BigEndian
import Sponge.SystemCall

/-!
# Socket addresses

`Address` (address.hh, address.cc): a `sockaddr_storage` of 128 bytes and the size of the address in
it.  Addresses are compared by `memcmp` on the bytes in use, and an IPv4 address can be made of a
number and read as one.  Numbers in host byte order have their low byte first.
-/

namespace Sponge

open BigEndian

/-- `AF_INET`. -/
def afInet : UInt16 := 2

/-- `sizeof(sockaddr_storage)`. -/
def storageSize : Nat := 128

/-- `sizeof(sockaddr_in)`. -/
def sockaddrInSize : Nat := 16

structure Address where
  size : Nat
  storage : List UInt8
  size_le : size ≤ storageSize
  storage_length : storage.length = storageSize
  deriving DecidableEq

namespace Address

/-- The constructor from a raw socket address: the storage is all zeros before. -/
def ofSockaddr (addr : List UInt8) : Except Exception Address :=
  if h : addr.length > storageSize then .error (.runtimeError "invalid sockaddr size")
  else .ok
    { size := addr.length
      storage := addr ++ List.replicate (storageSize - addr.length) 0
      size_le := Nat.not_lt.mp h
      storage_length := by
        rw [List.length_append, List.length_replicate]
        omega }

/-- The bytes in use. -/
def bytes (a : Address) : List UInt8 := a.storage.take a.size

/-- `operator==`. -/
def eq (a b : Address) : Bool :=
  if a.size ≠ b.size then false else a.storage.take a.size == b.storage.take a.size

/-- The fields of a `sockaddr_in`: `sin_family`, `sin_port`, `sin_addr.s_addr` and `sin_zero`. -/
structure SockaddrIn where
  family : UInt16 := 0
  port : List UInt8 := [0, 0]
  addr : List UInt8 := [0, 0, 0, 0]
  zero : List UInt8 := List.replicate 8 0

def SockaddrIn.toBytes (s : SockaddrIn) : List UInt8 :=
  (BigEndian.toBytes 2 s.family.toNat).reverse ++ s.port ++ s.addr ++ s.zero

/-- `ss_family`. -/
def ssFamily (a : Address) : UInt16 := UInt16.ofNat (ofBytes (a.storage.take 2).reverse)

def ipv4Numeric (a : Address) : Except Exception UInt32 :=
  if a.ssFamily ≠ afInet ∨ a.size ≠ sockaddrInSize then
    .error (.runtimeError "ipv4_numeric called on non-IPV4 address")
  else .ok (UInt32.ofNat (field a.storage 4 4))

def fromIpv4Numeric (ipAddress : UInt32) : Except Exception Address :=
  ofSockaddr { family := afInet, addr := toBytes 4 ipAddress.toNat : SockaddrIn }.toBytes

/-! ## What the constructor and the comparisons do -/

variable {a b : Address} {addr addr' : List UInt8}

theorem ofSockaddr_of_le (h : addr.length ≤ storageSize) : ∃ a, ofSockaddr addr = .ok a := by
  rw [ofSockaddr, dif_neg (Nat.not_lt.mpr h)]
  exact ⟨_, rfl⟩

theorem of_ofSockaddr (h : ofSockaddr addr = .ok a) :
    a.size = addr.length ∧
      a.storage = addr ++ List.replicate (storageSize - addr.length) 0 := by
  unfold ofSockaddr at h
  split at h
  · cases h
  · obtain rfl := Except.ok.inj h
    exact ⟨rfl, rfl⟩

/-- The bytes in use are those the address was made of. -/
theorem bytes_of_ofSockaddr (h : ofSockaddr addr = .ok a) : a.bytes = addr := by
  obtain ⟨hsize, hstorage⟩ := of_ofSockaddr h
  rw [bytes, hsize, hstorage, List.take_left]

theorem bytes_length (a : Address) : a.bytes.length = a.size := by
  have hsize := a.size_le
  have hlen := a.storage_length
  rw [bytes, List.length_take]
  omega

/-- Two addresses are equal if their bytes are. -/
theorem eq_iff : a.eq b = true ↔ a.bytes = b.bytes := by
  unfold eq
  split
  · rename_i hne
    refine iff_of_false Bool.false_ne_true fun hbytes => hne ?_
    rw [← a.bytes_length, ← b.bytes_length, hbytes]
  · rename_i heq
    rw [beq_iff_eq, bytes, bytes, Decidable.of_not_not heq]

/-- A front of the storage within the bytes in use. -/
theorem storage_take {n : Nat} (h : n ≤ a.size) : a.storage.take n = a.bytes.take n := by
  rw [bytes, List.take_take, Nat.min_eq_left h]

theorem storage_field {off len : Nat} (h : off + len ≤ a.size) :
    field a.storage off len = field a.bytes off len := by
  rw [field, field, bytes, List.drop_take, List.take_take, Nat.min_eq_left (by omega)]

theorem SockaddrIn.toBytes_length {s : SockaddrIn} (hport : s.port.length = 2)
    (haddr : s.addr.length = 4) (hzero : s.zero.length = 8) :
    s.toBytes.length = sockaddrInSize := by
  simp [toBytes, hport, haddr, hzero, sockaddrInSize]

/-- The family is in the first two bytes. -/
theorem ssFamily_eq_iff (h : 2 ≤ a.size) :
    a.ssFamily = afInet ↔ a.bytes.take 2 = (toBytes 2 afInet.toNat).reverse := by
  have hlen : (a.bytes.take 2).reverse.length = 2 := by
    rw [List.length_reverse, List.length_take, bytes_length, Nat.min_eq_left h]
  have hlt := ofBytes_lt (a.bytes.take 2).reverse
  rw [hlen] at hlt
  rw [ssFamily, storage_take h, ← List.reverse_eq_iff]
  constructor
  · intro hfamily
    refine ofBytes_injective (hlen.trans (toBytes_length _ _).symm) ?_
    rw [ofBytes_toBytes, ← hfamily, UInt16.toNat_ofNat_of_lt' hlt]
    exact (Nat.mod_eq_of_lt hlt).symm
  · intro hbytes
    rw [hbytes]
    decide

/-- **The addresses that can be read as a number** are those laid out as a `sockaddr_in` with the
family `AF_INET`, and the number is the one in network byte order. -/
theorem ipv4Numeric_iff {ip : UInt32} : a.ipv4Numeric = .ok ip ↔
    ∃ s : SockaddrIn, s.family = afInet ∧ s.port.length = 2 ∧ s.addr = toBytes 4 ip.toNat ∧
      s.zero.length = 8 ∧ a.bytes = s.toBytes := by
  have hlen := a.bytes_length
  constructor
  · intro h
    unfold ipv4Numeric at h
    split at h
    · cases h
    · rename_i hin
      obtain ⟨hfamily, hsize⟩ := not_or.mp hin
      have hsize : a.size = 16 := Decidable.of_not_not hsize
      have hfamily := (ssFamily_eq_iff (by omega)).mp (Decidable.of_not_not hfamily)
      obtain rfl := Except.ok.inj h
      refine ⟨⟨afInet, (a.bytes.drop 2).take 2, (a.bytes.drop 4).take 4, a.bytes.drop 8⟩, rfl,
        by simp [hlen, hsize], ?_, by simp [hlen, hsize], ?_⟩
      · have hlt := field_lt a.bytes 4 4
        rw [storage_field (by omega), UInt32.toNat_ofNat_of_lt' hlt]
        exact (toBytes_field (by omega)).symm
      · rw [SockaddrIn.toBytes, ← hfamily, List.append_assoc, List.append_assoc]
        have hjoin : ∀ n m, (a.bytes.drop n).take m ++ a.bytes.drop (n + m) = a.bytes.drop n := by
          intro n m
          rw [← List.drop_drop, List.take_append_drop]
        rw [hjoin 4 4, hjoin 2 2, List.take_append_drop]
  · rintro ⟨s, hfamily, hport, haddr, hzero, hbytes⟩
    have hsize : a.size = sockaddrInSize := by
      rw [← hlen, hbytes, SockaddrIn.toBytes_length hport (by rw [haddr, toBytes_length]) hzero]
    have hfront : ((BigEndian.toBytes 2 s.family.toNat).reverse ++ s.port).length = 4 := by
      simp [hport]
    rw [ipv4Numeric, if_neg]
    · rw [storage_field (by rw [hsize, sockaddrInSize]; omega), field, hbytes, SockaddrIn.toBytes,
        List.append_assoc, List.drop_left' hfront, List.take_left' (by rw [haddr, toBytes_length]),
        haddr, ofBytes_toBytes, Nat.mod_eq_of_lt ip.toNat_lt, UInt32.ofNat_toNat]
    · rw [not_or, Decidable.not_not, Decidable.not_not]
      refine ⟨(ssFamily_eq_iff (by rw [hsize, sockaddrInSize]; omega)).mpr ?_, hsize⟩
      rw [hbytes, SockaddrIn.toBytes, List.append_assoc, List.append_assoc,
        List.take_left' (by simp), hfamily]

theorem fromIpv4Numeric_eq (ip : UInt32) :
    ∃ a, fromIpv4Numeric ip = .ok a ∧ a.ipv4Numeric = .ok ip := by
  have hlen := SockaddrIn.toBytes_length
    (s := { family := afInet, addr := toBytes 4 ip.toNat }) rfl (toBytes_length _ _) rfl
  obtain ⟨a, ha⟩ := ofSockaddr_of_le (hlen.trans_le (by decide))
  exact ⟨a, ha, ipv4Numeric_iff.mpr ⟨_, rfl, rfl, rfl, rfl, bytes_of_ofSockaddr ha⟩⟩

end Address

/-- **Socket addresses keep what they are made of.**  An address made of raw bytes has exactly these
bytes, is equal to another one if and only if their bytes are, and can be read as an IPv4 number if
and only if they are a `sockaddr_in` of the family `AF_INET` with that number; every number can be
written and read back, and different numbers give different addresses. -/
theorem address_keeps_bytes (addr addr' : List UInt8) (a a' : Address)
    (h : Address.ofSockaddr addr = .ok a) (h' : Address.ofSockaddr addr' = .ok a') :
    a.bytes = addr ∧ (a.eq a' = true ↔ addr = addr') ∧
    (∀ ip, a.ipv4Numeric = .ok ip ↔ ∃ s : Address.SockaddrIn, s.family = afInet ∧
      s.port.length = 2 ∧ s.addr = toBytes 4 ip.toNat ∧ s.zero.length = 8 ∧ addr = s.toBytes) ∧
    ∀ ip ip', ∃ b b', Address.fromIpv4Numeric ip = .ok b ∧ Address.fromIpv4Numeric ip' = .ok b' ∧
      b.ipv4Numeric = .ok ip ∧ (b.eq b' = true ↔ ip = ip') := by
  have hbytes := Address.bytes_of_ofSockaddr h
  have hbytes' := Address.bytes_of_ofSockaddr h'
  refine ⟨hbytes, ?_, fun ip => ?_, fun ip ip' => ?_⟩
  · rw [Address.eq_iff, hbytes, hbytes']
  · rw [Address.ipv4Numeric_iff, hbytes]
  · obtain ⟨b, hb, hip⟩ := Address.fromIpv4Numeric_eq ip
    obtain ⟨b', hb', hip'⟩ := Address.fromIpv4Numeric_eq ip'
    refine ⟨b, b', hb, hb', hip, ?_⟩
    constructor
    · intro heq
      -- equal bytes are read as the same number
      rw [Address.eq_iff] at heq
      rw [Address.ipv4Numeric_iff, heq, ← Address.ipv4Numeric_iff] at hip
      exact Except.ok.inj (hip.symm.trans hip')
    · rintro rfl
      obtain rfl := Except.ok.inj (hb.symm.trans hb')
      exact Address.eq_iff.mpr rfl

/-- The loopback address with the port 80. -/
theorem address_keeps_bytes_loopback :
    let addr : List UInt8 := [2, 0, 0, 80, 127, 0, 0, 1, 0, 0, 0, 0, 0, 0, 0, 0]
    ∃ a b, Address.ofSockaddr addr = .ok a ∧ Address.ofSockaddr (addr.set 3 81) = .ok b ∧
      a.bytes = addr ∧ a.eq b = false ∧ a.ipv4Numeric = .ok 0x7f000001 := by
  intro addr
  obtain ⟨a, ha⟩ := Address.ofSockaddr_of_le (show addr.length ≤ storageSize by decide)
  obtain ⟨b, hb⟩ := Address.ofSockaddr_of_le (show (addr.set 3 81).length ≤ storageSize by decide)
  obtain ⟨hbytes, heq, hip, -⟩ := address_keeps_bytes addr (addr.set 3 81) a b ha hb
  refine ⟨a, b, ha, hb, hbytes, ?_, (hip _).mpr ?_⟩
  · rw [← Bool.not_eq_true, heq]
    decide
  · exact ⟨⟨afInet, [0, 80], [127, 0, 0, 1], List.replicate 8 0⟩, by decide⟩

/-! ## Names -/

/-- The bytes of a text. -/
def text (s : String) : List UInt8 := s.toUTF8.toList

/-- An exception of the utility classes, or the `tagged_error` with the error category of
`getaddrinfo`: what was attempted, and the value returned. -/
inductive Thrown
  | exception (e : Exception)
  | gaiError (attempt : List UInt8) (returnValue : Int)
  deriving DecidableEq

/-- What `getaddrinfo` finds: its return value, and the first address of its list. -/
structure Resolved where
  returnValue : Int
  address : Option (List UInt8)
  deriving DecidableEq

/-- The hints for `getaddrinfo` that `make_hints` makes. -/
structure Hints where
  flags : Nat
  family : UInt16
  deriving DecidableEq

namespace Address

/-- The constructor from a name, a service and hints, with the `getaddrinfo` of the system. -/
def resolve (getaddrinfo : List UInt8 → List UInt8 → Hints → Resolved) (node service : List UInt8)
    (hints : Hints) : Except Thrown Address :=
  let found := getaddrinfo node service hints
  if found.returnValue ≠ 0 then
    .error (.gaiError (text "getaddrinfo(" ++ node ++ text ", " ++ service ++ text ")")
      found.returnValue)
  else
    match found.address with
    | none => .error (.exception
        (.runtimeError "getaddrinfo returned successfully but with no results"))
    | some addr => (ofSockaddr addr).mapError .exception

/-- The constructor from a host name and a service: the flag is `AI_ALL`. -/
def ofHostname (getaddrinfo : List UInt8 → List UInt8 → Hints → Resolved)
    (hostname service : List UInt8) : Except Thrown Address :=
  resolve getaddrinfo hostname service ⟨0x10, afInet⟩

end Address

end Sponge
