import Mathlib.Data.Nat.Bitwise
import Sponge.Buffer
import Sponge.InternetChecksum
import Sponge.Lib.Strings
import Sponge.NetParser
import Sponge.Segment

/-!
# Segments as bytes

`TCPHeader::parse`, `TCPHeader::serialize`, `TCPSegment::parse` and `TCPSegment::serialize`
(tcp_helpers/tcp_header.cc, tcp_segment.cc).  A header is a record of nine numbers; `ReadFrom` says
which header a byte string has.  `parse_spec` and `serialize_eq` say what the two functions do,
`readFrom_layout` and `ReadFrom.beforeCksum_eq` that they belong together.
-/

namespace Sponge

open BigEndian OnesComplement

namespace TCPHeader

section

variable {m : Type → Type} [Monad m]

/-- The first part of `parse`: every field of the header is assigned from the parser, which gets at
its data through `access`. -/
def parseFieldsWith (access : NetParser.Access m) (p : NetParser) : m (TCPHeader × NetParser) := do
  let sport ← access.u16 p
  let dport ← access.u16 sport.2
  let seqno ← access.u32 dport.2
  let ackno ← access.u32 seqno.2
  let doff ← access.u8 ackno.2
  let flB ← access.u8 doff.2
  let win ← access.u16 flB.2
  let cksum ← access.u16 win.2
  let uptr ← access.u16 cksum.2
  return ({ sport := sport.1
            dport := dport.1
            seqno := ⟨seqno.1⟩
            ackno := ⟨ackno.1⟩
            doff := doff.1 >>> 4
            urg := flB.1 &&& 0b00100000 != 0
            ack := flB.1 &&& 0b00010000 != 0
            psh := flB.1 &&& 0b00001000 != 0
            rst := flB.1 &&& 0b00000100 != 0
            syn := flB.1 &&& 0b00000010 != 0
            fin := flB.1 &&& 0b00000001 != 0
            win := win.1
            cksum := cksum.1
            uptr := uptr.1 }, uptr.2)

/-- `parse`: the result, the header and the parser. -/
def parseWith (access : NetParser.Access m) (p : NetParser) :
    m (ParseResult × TCPHeader × NetParser) := do
  let (header, p) ← parseFieldsWith access p
  if header.doff < 5 then return (.headerTooShort, header, p)
  else
    -- skip any options or anything extra in the header
    let p ← access.removePrefix p (header.doff.toNat * 4 - TCPHeader.length)
    if p.error ≠ .noError then return (p.error, header, p) else return (.noError, header, p)

end

def parseFields (p : NetParser) : TCPHeader × NetParser := Id.run (parseFieldsWith .unchecked p)

/-- `parse`, for which no access fails (`parseChecked_eq`). -/
def parse (p : NetParser) : ParseResult × TCPHeader × NetParser := Id.run (parseWith .unchecked p)

/-- The byte that holds the flags. -/
def flB (h : TCPHeader) : UInt8 :=
  (if h.urg then 0b00100000 else 0) ||| (if h.ack then 0b00010000 else 0) |||
    (if h.psh then 0b00001000 else 0) ||| (if h.rst then 0b00000100 else 0) |||
    (if h.syn then 0b00000010 else 0) ||| (if h.fin then 0b00000001 else 0)

def serialize (h : TCPHeader) : Except String (List UInt8) :=
  if h.doff < 5 then .error "TCP header too short"
  else
    let ret := NetUnparser.u16 [] h.sport
    let ret := NetUnparser.u16 ret h.dport
    let ret := NetUnparser.u32 ret h.seqno.rawValue
    let ret := NetUnparser.u32 ret h.ackno.rawValue
    let ret := NetUnparser.u8 ret (h.doff <<< 4)
    let ret := NetUnparser.u8 ret h.flB
    let ret := NetUnparser.u16 ret h.win
    let ret := NetUnparser.u16 ret h.cksum
    let ret := NetUnparser.u16 ret h.uptr
    -- expand the header to its advertised size
    .ok (Strings.resize 0 ret (4 * h.doff.toNat))

end TCPHeader

namespace TCPSegment

/-- `parse` on the segment object `seg`.  The `ParseResult` of the header is not looked at. -/
def parse (seg : TCPSegment) (buffer : List UInt8) (datagramLayerChecksum : UInt32) :
    ParseResult × TCPSegment :=
  let check := (InternetChecksum.new datagramLayerChecksum).add buffer
  if check.value ≠ 0 then (.badChecksum, seg)
  else
    let header := TCPHeader.parse { buffer := buffer }
    (header.2.2.error, { header := header.2.1, payload := header.2.2.buffer })

/-- `serialize`. -/
def serialize (seg : TCPSegment) (datagramLayerChecksum : UInt32) : Except String BufferList := do
  let headerOut := { seg.header with cksum := 0 }
  -- calculate checksum: taken over entire segment
  let check := InternetChecksum.new datagramLayerChecksum
  let check := check.add (← headerOut.serialize)
  let check := check.add seg.payload
  let headerOut := { headerOut with cksum := check.value }
  let ret := BufferList.new
  let ret := ret.append (BufferList.ofString (← headerOut.serialize))
  return ret.append (BufferList.ofBuffer (Buffer.ofString seg.payload))

end TCPSegment

/-! ## Reading a header -/

namespace TCPHeader

/-- The data-offset nibble of a segment. -/
def dataOffset (b : List UInt8) : Nat := field b 12 1 / 16

/-- The header `h` has the fields of `b`. -/
structure ReadFrom (b : List UInt8) (h : TCPHeader) : Prop where
  sport : h.sport.toNat = field b 0 2
  dport : h.dport.toNat = field b 2 2
  seqno : h.seqno.rawValue.toNat = field b 4 4
  ackno : h.ackno.rawValue.toNat = field b 8 4
  doff : h.doff.toNat = dataOffset b
  urg : h.urg = (field b 13 1).testBit 5
  ack : h.ack = (field b 13 1).testBit 4
  psh : h.psh = (field b 13 1).testBit 3
  rst : h.rst = (field b 13 1).testBit 2
  syn : h.syn = (field b 13 1).testBit 1
  fin : h.fin = (field b 13 1).testBit 0
  win : h.win.toNat = field b 14 2
  cksum : h.cksum.toNat = field b 16 2
  uptr : h.uptr.toNat = field b 18 2

theorem shiftRight_four (x : UInt8) : (x >>> 4).toNat = x.toNat / 16 := by
  rw [UInt8.toNat_shiftRight, Nat.shiftRight_eq_div_pow]
  rfl

/-- A flag is one bit of its byte. -/
theorem flag_eq_testBit {x mask : UInt8} {n i : Nat} (hx : x.toNat = n)
    (hmask : mask.toNat = 2 ^ i) : (x &&& mask != 0) = n.testBit i := by
  have hand : (x &&& mask).toNat = (n.testBit i).toNat * 2 ^ i := by
    rw [UInt8.toNat_and, hmask, hx, Nat.and_two_pow]
  rw [Bool.eq_iff_iff, bne_iff_ne, ne_eq, ← UInt8.toNat_inj, hand]
  cases n.testBit i with
  | true => simp
  | false => simp

open NetParser

/-- The fields take 20 bytes, and if they are there, each field is read from its place. -/
theorem parseFields_spec (p : NetParser) :
    Took TCPHeader.length p (parseFields p).2 ∧
      (p.error = .noError → TCPHeader.length ≤ p.buffer.length →
        ReadFrom p.buffer (parseFields p).1) := by
  have t0 : Took 0 p p := ⟨by simp, fun _ => rfl⟩
  have t2 := u16_took t0
  have t4 := u16_took t2
  have t8 := u32_took t4
  have t12 := u32_took t8
  have t13 := u8_took t12
  have t14 := u8_took t13
  have t16 := u16_took t14
  have t18 := u16_took t16
  have t20 : Took 20 p _ := u16_took t18
  have hu := Access.faithful_unchecked
  simp only [parseFields, parseFieldsWith, hu.u8, hu.u16, hu.u32, pure_bind, Id.run_pure]
  refine ⟨t20, fun hok hlen => ?_⟩
  have hlen : 20 ≤ p.buffer.length := hlen
  have hdoff := u8_toNat t12 hok (by omega)
  have hflB := u8_toNat t13 hok (by omega)
  exact
    { sport := u16_toNat t0 hok (by omega)
      dport := u16_toNat t2 hok (by omega)
      seqno := u32_toNat t4 hok (by omega)
      ackno := u32_toNat t8 hok (by omega)
      doff := by rw [shiftRight_four, hdoff, dataOffset]
      urg := flag_eq_testBit hflB rfl
      ack := flag_eq_testBit hflB rfl
      psh := flag_eq_testBit hflB rfl
      rst := flag_eq_testBit hflB rfl
      syn := flag_eq_testBit hflB rfl
      fin := flag_eq_testBit hflB rfl
      win := u16_toNat t14 hok (by omega)
      cksum := u16_toNat t16 hok (by omega)
      uptr := u16_toNat t18 hok (by omega) }

/-- What `parse` does with a whole byte string.  Every field is read if there are 20 bytes; the
parser ends without an error also if the data offset is too small, and then the payload begins
after 20 bytes. -/
structure Parsed (b : List UInt8) (r : ParseResult × TCPHeader × NetParser) : Prop where
  readFrom : TCPHeader.length ≤ b.length → ReadFrom b r.2.1
  noError : r.2.2.error = .noError ↔ TCPHeader.length ≤ b.length ∧
    (dataOffset b < 5 ∨ 4 * dataOffset b ≤ b.length)
  buffer : r.2.2.error = .noError → r.2.2.buffer = b.drop (max TCPHeader.length (4 * dataOffset b))

theorem length_eq : TCPHeader.length = 20 := rfl

/-- The fields are the same, however the parser gets at its data. -/
theorem parseFieldsWith_eq {m : Type → Type} [Monad m] [LawfulMonad m] {access : Access m}
    (h : access.Faithful) (p : NetParser) : parseFieldsWith access p = pure (parseFields p) := by
  have hu := Access.faithful_unchecked
  simp only [parseFields, parseFieldsWith, h.u8, h.u16, h.u32, hu.u8, hu.u16, hu.u32, pure_bind,
    Id.run_pure]

/-- `parse` without the tests of its last lines. -/
theorem parseWith_eq {m : Type → Type} [Monad m] [LawfulMonad m] {access : Access m}
    (h : access.Faithful) (p : NetParser) : parseWith access p = pure (
      if (parseFields p).1.doff.toNat < 5 then (.headerTooShort, parseFields p)
      else
        let p' := (parseFields p).2.removePrefix
          ((parseFields p).1.doff.toNat * 4 - TCPHeader.length)
        (p'.error, (parseFields p).1, p')) := by
  rw [parseWith, parseFieldsWith_eq h, pure_bind]
  generalize parseFields p = r
  by_cases hdoff : r.1.doff.toNat < 5
  · rw [if_pos hdoff]
    exact if_pos hdoff
  · rw [if_neg hdoff]
    refine (if_neg hdoff).trans ?_
    rw [h.removePrefix, pure_bind]
    dsimp only
    split
    · rfl
    · rename_i hok
      rw [not_not.mp hok]

theorem parse_eq (p : NetParser) : parse p =
    if (parseFields p).1.doff.toNat < 5 then (.headerTooShort, parseFields p)
    else
      let p' := (parseFields p).2.removePrefix ((parseFields p).1.doff.toNat * 4 - TCPHeader.length)
      (p'.error, (parseFields p).1, p') :=
  parseWith_eq Access.faithful_unchecked p

theorem parse_header (p : NetParser) : (parse p).2.1 = (parseFields p).1 := by
  rw [parse_eq]
  split <;> rfl

theorem parse_fst (p : NetParser) : (parse p).1 =
    if (parse p).2.1.doff.toNat < 5 then .headerTooShort else (parse p).2.2.error := by
  rw [parse_header, parse_eq]
  split <;> rfl

/-- Together the fields and the options take `4 * doff` bytes, but never fewer than 20. -/
theorem parse_took (p : NetParser) :
    Took (max TCPHeader.length (4 * (parse p).2.1.doff.toNat)) p (parse p).2.2 := by
  have htook := (parseFields_spec p).1
  rw [parse_header, parse_eq]
  split
  · rw [max_eq_left (by rw [length_eq]; omega)]
    exact htook
  · have hskip := htook.trans (removePrefix_took _
      ((parseFields p).1.doff.toNat * 4 - TCPHeader.length))
    rwa [show TCPHeader.length + ((parseFields p).1.doff.toNat * 4 - TCPHeader.length) =
      max TCPHeader.length (4 * (parseFields p).1.doff.toNat) by rw [length_eq]; omega] at hskip

theorem parse_spec (b : List UInt8) : Parsed b (parse { buffer := b }) := by
  have htook := parse_took { buffer := b }
  have hread : TCPHeader.length ≤ b.length → ReadFrom b (parse { buffer := b }).2.1 := by
    rw [parse_header]
    exact (parseFields_spec { buffer := b }).2 rfl
  have hno : (parse { buffer := b }).2.2.error = .noError ↔
      max TCPHeader.length (4 * (parse { buffer := b }).2.1.doff.toNat) ≤ b.length := by
    simpa using htook.noError
  refine ⟨hread, ?_, fun he => ?_⟩
  · rw [hno]
    by_cases hlen : TCPHeader.length ≤ b.length
    · rw [(hread hlen).doff]
      simp only [length_eq] at hlen ⊢
      omega
    · simp only [length_eq] at hlen ⊢
      omega
  · have hlen := hno.mp he
    rw [htook.buffer he, (hread (by omega)).doff]

/-- **The result that `TCPHeader::parse` returns is right**: it is `NoError` exactly for a header
that is long enough and has a data offset that is allowed. -/
theorem parse_noError_iff (b : List UInt8) : (parse { buffer := b }).1 = .noError ↔
    TCPHeader.length ≤ b.length ∧ 5 ≤ dataOffset b ∧ 4 * dataOffset b ≤ b.length := by
  have hspec := parse_spec b
  have hiff := hspec.noError
  rw [parse_fst]
  by_cases hlen : TCPHeader.length ≤ b.length
  · rw [(hspec.readFrom hlen).doff]
    split
    · rename_i hsmall
      exact iff_of_false (by simp) (fun h => absurd h.2.1 (Nat.not_le.mpr hsmall))
    · rename_i hlarge
      rw [hiff]
      omega
  · split
    · exact iff_of_false (by simp) (fun h => hlen h.1)
    · exact iff_of_false (fun h => hlen (hiff.mp h).1) (fun h => hlen h.1)

end TCPHeader

namespace TCPSegment

variable {b : List UInt8} {c : UInt32}

/-- The bytes `b` pass the checksum test at the beginning of `parse`. -/
def PassesCheck (b : List UInt8) (c : UInt32) : Prop :=
  ((InternetChecksum.new c).add b).value = 0

instance (b : List UInt8) (c : UInt32) : Decidable (PassesCheck b c) :=
  inferInstanceAs (Decidable (_ = _))

theorem passesCheck_iff_zero (hb : b.length ≤ 65535) (hc : c.toNat < 2 ^ 31) :
    PassesCheck b c ↔ internetChecksum c b = 0 := by
  rw [← InternetChecksum.value_add hc hb]
  exact UInt16.toNat_inj.symm

/-- After the check the result is the error of the parser. -/
theorem parse_of_passesCheck (seg : TCPSegment) (h : PassesCheck b c) :
    seg.parse b c = ((TCPHeader.parse { buffer := b }).2.2.error,
      { header := (TCPHeader.parse { buffer := b }).2.1
        payload := (TCPHeader.parse { buffer := b }).2.2.buffer }) := by
  rw [parse]
  exact if_neg (not_not.mpr h)

theorem parse_of_not_passesCheck (seg : TCPSegment) (h : ¬ PassesCheck b c) :
    seg.parse b c = (.badChecksum, seg) := by
  rw [parse]
  exact if_pos h

/-- **What `TCPSegment::parse` accepts.** -/
theorem parse_noError_iff (seg : TCPSegment) (hb : b.length ≤ 65535) (hc : c.toNat < 2 ^ 31) :
    (seg.parse b c).1 = .noError ↔ internetChecksum c b = 0 ∧ TCPHeader.length ≤ b.length ∧
      (TCPHeader.dataOffset b < 5 ∨ 4 * TCPHeader.dataOffset b ≤ b.length) := by
  rw [← passesCheck_iff_zero hb hc]
  by_cases hpass : PassesCheck b c
  · rw [parse_of_passesCheck seg hpass, (TCPHeader.parse_spec b).noError]
    exact ⟨fun h => ⟨hpass, h⟩, fun h => h.2⟩
  · rw [parse_of_not_passesCheck seg hpass]
    exact iff_of_false (by simp) (fun h => hpass h.1)

/-- **What it makes of what it accepts.** -/
theorem parse_of_noError {seg : TCPSegment} (hb : b.length ≤ 65535) (hc : c.toNat < 2 ^ 31)
    (h : (seg.parse b c).1 = .noError) :
    TCPHeader.ReadFrom b (seg.parse b c).2.header ∧
      (seg.parse b c).2.payload =
        b.drop (max TCPHeader.length (4 * TCPHeader.dataOffset b)) := by
  obtain ⟨h0, hlen, -⟩ := (parse_noError_iff seg hb hc).mp h
  have hspec := TCPHeader.parse_spec b
  rw [parse_of_passesCheck seg ((passesCheck_iff_zero hb hc).mpr h0)] at h ⊢
  exact ⟨hspec.readFrom hlen, hspec.buffer h⟩

end TCPSegment

/-! ## Writing a header -/

namespace TCPHeader

/-- The numbers that `serialize` writes before the checksum, with their widths. -/
def beforeCksum (h : TCPHeader) : List (Nat × Nat) :=
  [(2, h.sport.toNat), (2, h.dport.toNat), (4, h.seqno.rawValue.toNat),
    (4, h.ackno.rawValue.toNat), (1, (h.doff <<< 4).toNat), (1, h.flB.toNat), (2, h.win.toNat)]

/-- All numbers that `serialize` writes. -/
def record (h : TCPHeader) : List (Nat × Nat) :=
  h.beforeCksum ++ [(2, h.cksum.toNat), (2, h.uptr.toNat)]

theorem layout_record_length (h : TCPHeader) : (layout h.record).length = 20 := by
  rw [layout_length]
  rfl

/-- `serialize` writes the record and fills up with zeros. -/
theorem serialize_eq {h : TCPHeader} (hdoff : 5 ≤ h.doff.toNat) :
    h.serialize = .ok (layout h.record ++ List.replicate (4 * h.doff.toNat - 20) 0) := by
  have hlen := h.layout_record_length
  unfold serialize
  rw [if_neg (show ¬ h.doff < 5 from Nat.not_lt.mpr hdoff)]
  dsimp only [NetUnparser.u8, NetUnparser.u16, NetUnparser.u32]
  simp only [NetUnparser.unparseInt_eq]
  have hrecord : [] ++ toBytes 2 h.sport.toNat ++ toBytes 2 h.dport.toNat ++
      toBytes 4 h.seqno.rawValue.toNat ++ toBytes 4 h.ackno.rawValue.toNat ++
      toBytes 1 (h.doff <<< 4).toNat ++ toBytes 1 h.flB.toNat ++ toBytes 2 h.win.toNat ++
      toBytes 2 h.cksum.toNat ++ toBytes 2 h.uptr.toNat = layout h.record := by
    simp [layout, record, beforeCksum]
  rw [hrecord, Strings.resize_of_le (by omega), hlen]

/-! ## Reading what was written, and writing what was read -/

theorem shiftLeft_four {x : UInt8} (hx : x.toNat ≤ 15) : (x <<< 4).toNat = x.toNat * 16 := by
  rw [UInt8.toNat_shiftLeft, Nat.shiftLeft_eq]
  change x.toNat * 2 ^ 4 % 2 ^ 8 = _
  omega

/-- Every flag has its own bit. -/
theorem flB_testBit (h : TCPHeader) :
    h.flB.toNat.testBit 5 = h.urg ∧ h.flB.toNat.testBit 4 = h.ack ∧
      h.flB.toNat.testBit 3 = h.psh ∧ h.flB.toNat.testBit 2 = h.rst ∧
      h.flB.toNat.testBit 1 = h.syn ∧ h.flB.toNat.testBit 0 = h.fin := by
  unfold flB
  generalize h.urg = urg, h.ack = ack, h.psh = psh, h.rst = rst, h.syn = syn, h.fin = fin
  revert urg ack psh rst syn fin
  decide

/-- A byte without reserved bits is determined by the flags. -/
theorem flB_eq {h : TCPHeader} {x : Nat} (hx : x < 64) (hurg : h.urg = x.testBit 5)
    (hack : h.ack = x.testBit 4) (hpsh : h.psh = x.testBit 3) (hrst : h.rst = x.testBit 2)
    (hsyn : h.syn = x.testBit 1) (hfin : h.fin = x.testBit 0) : h.flB.toNat = x := by
  unfold flB
  rw [hurg, hack, hpsh, hrst, hsyn, hfin]
  clear hurg hack hpsh hrst hsyn hfin
  revert x
  decide

/-- The bytes of a header are read back as that header. -/
theorem readFrom_layout (h : TCPHeader) (hdoff : h.doff.toNat ≤ 15) (rest : List UInt8) :
    ReadFrom (layout h.record ++ rest) h := by
  have hfields := fields_layout h.record rest []
  rw [List.nil_append] at hfields
  generalize layout h.record ++ rest = b at hfields
  simp only [record, beforeCksum, List.cons_append, List.nil_append, List.length_nil, List.map_cons,
    List.map_nil, fields, Nat.zero_add, Nat.reduceAdd, List.cons.injEq, Prod.mk.injEq, true_and,
    and_true] at hfields
  obtain ⟨hsport, hdport, hseqno, hackno, hoffset, hflags, hwin, hcksum, huptr⟩ := hfields
  rw [Nat.mod_eq_of_lt (UInt8.toNat_lt _)] at hoffset hflags
  obtain ⟨hurg, hack, hpsh, hrst, hsyn, hfin⟩ := h.flB_testBit
  rw [← hflags] at hurg hack hpsh hrst hsyn hfin
  exact
    { sport := by rw [hsport, Nat.mod_eq_of_lt h.sport.toNat_lt]
      dport := by rw [hdport, Nat.mod_eq_of_lt h.dport.toNat_lt]
      seqno := by rw [hseqno, Nat.mod_eq_of_lt h.seqno.rawValue.toNat_lt]
      ackno := by rw [hackno, Nat.mod_eq_of_lt h.ackno.rawValue.toNat_lt]
      doff := by
        rw [dataOffset, hoffset, shiftLeft_four hdoff]
        omega
      urg := hurg.symm
      ack := hack.symm
      psh := hpsh.symm
      rst := hrst.symm
      syn := hsyn.symm
      fin := hfin.symm
      win := by rw [hwin, Nat.mod_eq_of_lt h.win.toNat_lt]
      cksum := by rw [hcksum, Nat.mod_eq_of_lt h.cksum.toNat_lt]
      uptr := by rw [huptr, Nat.mod_eq_of_lt h.uptr.toNat_lt] }

/-- A byte string has at most one header. -/
theorem ReadFrom.unique {b : List UInt8} {h h' : TCPHeader} (hr : ReadFrom b h)
    (hr' : ReadFrom b h') : h = h' := by
  have hsport := UInt16.toNat_inj.mp (hr.sport.trans hr'.sport.symm)
  have hdport := UInt16.toNat_inj.mp (hr.dport.trans hr'.dport.symm)
  have hseqno := WrappingInt32.ext_toNat (hr.seqno.trans hr'.seqno.symm)
  have hackno := WrappingInt32.ext_toNat (hr.ackno.trans hr'.ackno.symm)
  have hdoff := UInt8.toNat_inj.mp (hr.doff.trans hr'.doff.symm)
  have hwin := UInt16.toNat_inj.mp (hr.win.trans hr'.win.symm)
  have hcksum := UInt16.toNat_inj.mp (hr.cksum.trans hr'.cksum.symm)
  have huptr := UInt16.toNat_inj.mp (hr.uptr.trans hr'.uptr.symm)
  cases h
  cases h'
  simp only [mk.injEq]
  exact ⟨hsport, hdport, hseqno, hackno, hdoff, hr.urg.trans hr'.urg.symm,
    hr.ack.trans hr'.ack.symm, hr.psh.trans hr'.psh.symm, hr.rst.trans hr'.rst.symm,
    hr.syn.trans hr'.syn.symm, hr.fin.trans hr'.fin.symm, hwin, hcksum, huptr⟩

/-- If the reserved bits are zero, the header is written as it was read. -/
theorem ReadFrom.beforeCksum_eq {b : List UInt8} {h : TCPHeader} (hr : ReadFrom b h)
    (hnibble : field b 12 1 % 16 = 0) (hbits : field b 13 1 < 64) :
    h.beforeCksum = fields b 0 [2, 2, 4, 4, 1, 1, 2] := by
  have hlt := field_lt b 12 1
  have hdoff := hr.doff
  rw [dataOffset] at hdoff
  have hoffset : (h.doff <<< 4).toNat = field b 12 1 := by
    rw [shiftLeft_four (by omega)]
    omega
  have hflags := flB_eq hbits hr.urg hr.ack hr.psh hr.rst hr.syn hr.fin
  rw [beforeCksum, hr.sport, hr.dport, hr.seqno, hr.ackno, hoffset, hflags, hr.win]
  rfl

end TCPHeader

end Sponge
