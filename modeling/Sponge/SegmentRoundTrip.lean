import Sponge.SegmentCodec

/-!
# Encoding and decoding segments

* `segment_decode_encode`: decoding undoes encoding;
* `segment_accepted_iff`: when `TCPSegment::parse` accepts exactly the well-formed segments.  It
  does not if the data offset is below 5: `TCPHeader::parse` then returns `HeaderTooShort`, but the
  parser has no error, and that is what the segment looks at (`short_header_is_accepted`);
* `segment_encode_decode`: encoding undoes decoding, if nothing is lost that the header does not
  keep.
-/

namespace Sponge

open BigEndian OnesComplement

/-- The header with another checksum. -/
def TCPHeader.withCksum (h : TCPHeader) (cksum : UInt16) : TCPHeader := { h with cksum := cksum }

namespace TCPSegment

/-- The bytes of the segment after its checksum. -/
def afterCksum (seg : TCPSegment) : List UInt8 :=
  layout [(2, seg.header.uptr.toNat)] ++
    (List.replicate (4 * seg.header.doff.toNat - 20) 0 ++ seg.payload)

/-- The bytes of the segment with the checksum `cksum`. -/
def encoded (seg : TCPSegment) (cksum : Nat) : List UInt8 :=
  layout seg.header.beforeCksum ++ (toBytes 2 cksum ++ seg.afterCksum)

variable {seg : TCPSegment} {c : UInt32}

theorem beforeCksum_length (h : TCPHeader) : (layout h.beforeCksum).length = 16 := by
  rw [layout_length]
  rfl

theorem encoded_eq (seg : TCPSegment) (cksum : UInt16) :
    seg.encoded cksum.toNat = layout (seg.header.withCksum cksum).record ++
      (List.replicate (4 * seg.header.doff.toNat - 20) 0 ++ seg.payload) := by
  have hrecord : layout (seg.header.withCksum cksum).record = layout seg.header.beforeCksum ++
      (toBytes 2 cksum.toNat ++ layout [(2, seg.header.uptr.toNat)]) := by
    simp only [layout, TCPHeader.record, List.flatMap_append, List.flatMap_cons, List.flatMap_nil,
      List.append_nil]
    rfl
  simp only [encoded, afterCksum, hrecord, List.append_assoc]

theorem encoded_length (hdoff : 5 ≤ seg.header.doff.toNat) (cksum : Nat) :
    (seg.encoded cksum).length = 4 * seg.header.doff.toNat + seg.payload.length := by
  have hone : (layout [(2, seg.header.uptr.toNat)]).length = 2 := by
    rw [layout_length]
    rfl
  simp only [encoded, afterCksum, List.length_append, beforeCksum_length, toBytes_length, hone,
    List.length_replicate]
  omega

/-- A header is never all zeros: there is the data offset. -/
theorem encoded_pos (hdoff : 5 ≤ seg.header.doff.toNat) (hmax : seg.header.doff.toNat ≤ 15)
    (cksum : Nat) : 0 < wordSum (seg.encoded cksum) := by
  have hshift := TCPHeader.shiftLeft_four hmax
  have hbyte : seg.header.doff <<< 4 ∈ toBytes 1 (seg.header.doff <<< 4).toNat := by
    rw [toBytes, Nat.mul_zero, Nat.shiftRight_zero, UInt8.ofNat_toNat]
    exact List.mem_cons_self
  have hmem : seg.header.doff <<< 4 ∈ layout seg.header.beforeCksum := by
    refine List.mem_flatMap.mpr ⟨(1, (seg.header.doff <<< 4).toNat), ?_, hbyte⟩
    simp only [TCPHeader.beforeCksum, List.mem_cons, true_or, or_true]
  exact wordSum_pos (List.mem_append_left _ hmem) (by omega)

/-- `serialize` writes the segment with the checksum that the code computes of it. -/
theorem serialize_eq (hdoff : 5 ≤ seg.header.doff.toNat) (c : UInt32) :
    ∃ buffers, seg.serialize c = .ok buffers ∧ buffers.contents =
      seg.encoded ((InternetChecksum.new c).add (seg.encoded 0)).value.toNat := by
  have hheader : ∀ cksum, (seg.header.withCksum cksum).serialize =
      .ok (layout (seg.header.withCksum cksum).record ++
        List.replicate (4 * seg.header.doff.toNat - 20) 0) :=
    fun cksum => TCPHeader.serialize_eq hdoff
  have hunfold : seg.serialize c = (do
      let zeroed ← (seg.header.withCksum 0).serialize
      let cksum := (((InternetChecksum.new c).add zeroed).add seg.payload).value
      let header ← (seg.header.withCksum cksum).serialize
      return (BufferList.new.append (BufferList.ofString header)).append
        (BufferList.ofBuffer (Buffer.ofString seg.payload))) := rfl
  have hsum : ((InternetChecksum.new c).add (layout (seg.header.withCksum 0).record ++
      List.replicate (4 * seg.header.doff.toNat - 20) 0)).add seg.payload =
      (InternetChecksum.new c).add (seg.encoded 0) := by
    rw [← InternetChecksum.add_append, List.append_assoc]
    exact congrArg _ (encoded_eq seg 0).symm
  rw [hunfold, hheader]
  simp only [bind, Except.bind, pure, Except.pure, hsum, hheader]
  refine ⟨_, rfl, ?_⟩
  rw [encoded_eq]
  simp [Buffer.str_eq, Buffer.ofString]

/-- A header that is too short is not serialized. -/
theorem le_doff_of_serialize {buffers : BufferList} (h : seg.serialize c = .ok buffers) :
    5 ≤ seg.header.doff.toNat := by
  by_contra hsmall
  have herror : (seg.header.withCksum 0).serialize = .error "TCP header too short" :=
    if_pos (show seg.header.doff < 5 from Nat.not_le.mp hsmall)
  have hser : seg.serialize c = .error "TCP header too short" := by
    unfold serialize
    change ((seg.header.withCksum 0).serialize >>= _) = _
    rw [herror]
    rfl
  rw [hser] at h
  cases h

/-- **What `serialize` writes**: the segment with the checksum of the rest in its place. -/
theorem serialize_spec (hdoff : 5 ≤ seg.header.doff.toNat)
    (hlen : 4 * seg.header.doff.toNat + seg.payload.length ≤ 65535) (hc : c.toNat < 2 ^ 31) :
    ∃ buffers, seg.serialize c = .ok buffers ∧
      buffers.contents = seg.encoded (internetChecksum c (seg.encoded 0)) := by
  have hcksum := InternetChecksum.value_add hc
    (show (seg.encoded 0).length ≤ 65535 by rw [encoded_length hdoff]; exact hlen)
  rw [← hcksum]
  exact serialize_eq hdoff c

/-- The encoded segment passes the check. -/
theorem checksum_encoded (seg : TCPSegment) (c : UInt32) :
    internetChecksum c (seg.encoded (internetChecksum c (seg.encoded 0))) = 0 :=
  internetChecksum_complement (by rw [beforeCksum_length]) rfl

/-- No other checksum passes the check, but for the second representation of zero. -/
theorem checksum_encoded_unique (hdoff : 5 ≤ seg.header.doff.toNat)
    (hmax : seg.header.doff.toNat ≤ 15) {x : Nat} (hlt : x < 2 ^ 16)
    (hx : internetChecksum c (seg.encoded x) = 0) :
    x ≠ 0xffff ∧ x = internetChecksum c (seg.encoded 0) ∨
      x = 0xffff ∧ internetChecksum c (seg.encoded 0) = 0 := by
  have hpos : 0 < c.toNat + wordSum (seg.encoded 0) :=
    Nat.add_pos_right _ (encoded_pos hdoff hmax 0)
  have hne := internetChecksum_lt hpos
  rcases internetChecksum_unique (by rw [beforeCksum_length]) hpos hlt hx with heq | hones
  · have heq : x = internetChecksum c (seg.encoded 0) := heq
    exact Or.inl ⟨by omega, heq⟩
  · exact Or.inr hones

end TCPSegment

open TCPSegment in
/-- **Decoding undoes encoding.**  Every segment with a data offset that fits its four bits, and
that fits a datagram, is encoded; the bytes are accepted with the same pseudo-header sum, by
whatever segment object parses them, and give the same header, but for the checksum, and the same
payload. -/
theorem segment_decode_encode (seg seg₀ : TCPSegment) (c : UInt32)
    (hmin : 5 ≤ seg.header.doff.toNat) (hmax : seg.header.doff.toNat ≤ 15)
    (hlen : 4 * seg.header.doff.toNat + seg.payload.length ≤ 65535) (hc : c.toNat < 2 ^ 31) :
    ∃ buffers seg', seg.serialize c = .ok buffers ∧
      seg₀.parse buffers.contents c = (.noError, seg') ∧
      seg'.header = { seg.header with cksum := seg'.header.cksum } ∧
      seg'.payload = seg.payload := by
  obtain ⟨buffers, hser, hcat⟩ := serialize_spec hmin hlen hc
  have hcheck := checksum_encoded seg c
  have hblen := encoded_length hmin (internetChecksum c (seg.encoded 0))
  obtain ⟨cksum, hcksum⟩ : ∃ cksum : UInt16,
      cksum.toNat = internetChecksum c (seg.encoded 0) := by
    refine ⟨UInt16.ofNat (internetChecksum c (seg.encoded 0)), ?_⟩
    rw [UInt16.toNat_ofNat', Nat.mod_eq_of_lt (by unfold internetChecksum; omega)]
  rw [← hcksum] at hcat hcheck hblen
  have hread : TCPHeader.ReadFrom (seg.encoded cksum.toNat) (seg.header.withCksum cksum) := by
    rw [encoded_eq]
    exact TCPHeader.readFrom_layout (seg.header.withCksum cksum) hmax _
  have hoffset : TCPHeader.dataOffset (seg.encoded cksum.toNat) = seg.header.doff.toNat :=
    hread.doff.symm
  have hno : (seg₀.parse (seg.encoded cksum.toNat) c).1 = .noError := by
    rw [parse_noError_iff seg₀ (by omega) hc, hoffset, hblen]
    exact ⟨hcheck, by rw [TCPHeader.length_eq]; omega, Or.inr (Nat.le_add_right _ _)⟩
  obtain ⟨hr, hpayload⟩ := parse_of_noError (by omega) hc hno
  have hheader := hr.unique hread
  refine ⟨buffers, (seg₀.parse (seg.encoded cksum.toNat) c).2, hser, ?_, ?_, ?_⟩
  · rw [hcat]
    exact Prod.ext hno rfl
  · rw [hheader]
    rfl
  · rw [hpayload, hoffset, max_eq_right (by rw [TCPHeader.length_eq]; omega), encoded_eq,
      ← List.append_assoc]
    refine List.drop_left' ?_
    rw [List.length_append, TCPHeader.layout_record_length, List.length_replicate]
    omega

/-- A segment with options, an odd payload and a pseudo-header sum. -/
theorem segment_decode_encode_options :
    ∃ buffers seg', TCPSegment.serialize
        { header := { sport := 1, seqno := ⟨4294967295⟩, doff := 6, syn := true, cksum := 7 }
          payload := [1, 2, 255] } 123456 = .ok buffers ∧
      TCPSegment.parse {} buffers.contents 123456 = (.noError, seg') ∧
      seg'.payload = [1, 2, 255] := by
  obtain ⟨buffers, seg', hser, hparse, -, hpayload⟩ := segment_decode_encode
    { header := { sport := 1, seqno := ⟨4294967295⟩, doff := 6, syn := true, cksum := 7 }
      payload := [1, 2, 255] } {} 123456 (by decide) (by decide) (by decide) (by decide)
  exact ⟨buffers, seg', hser, hparse, hpayload⟩

/-! ## What is accepted -/

/-- `b` is a well-formed segment under the initial sum `c`: the checksum is right, and the header is
as long as it says and not shorter than allowed. -/
def TCPSegment.Conforms (c : UInt32) (b : List UInt8) : Prop :=
  internetChecksum c b = 0 ∧ 20 ≤ b.length ∧ 5 ≤ TCPHeader.dataOffset b ∧
    4 * TCPHeader.dataOffset b ≤ b.length

instance (c : UInt32) (b : List UInt8) : Decidable (TCPSegment.Conforms c b) :=
  inferInstanceAs (Decidable (_ ∧ _ ∧ _ ∧ _))

open TCPSegment in
/-- **When exactly the well-formed segments are accepted.**  On every byte string of at most 65535
bytes, `TCPSegment::parse` returns `NoError` exactly for a well-formed segment, and then takes every
header field from its place and the payload from the data offset on, if and only if the string is
not one with a right checksum, at least 20 bytes and a data offset below 5. -/
theorem segment_accepted_iff (seg : TCPSegment) (b : List UInt8) (c : UInt32)
    (hb : b.length ≤ 65535) (hc : c.toNat < 2 ^ 31) :
    (((seg.parse b c).1 = .noError ↔ Conforms c b) ∧
      ((seg.parse b c).1 = .noError → TCPHeader.ReadFrom b (seg.parse b c).2.header ∧
        (seg.parse b c).2.payload = b.drop (4 * TCPHeader.dataOffset b))) ↔
    ¬ (internetChecksum c b = 0 ∧ 20 ≤ b.length ∧ TCPHeader.dataOffset b < 5) := by
  have hiff := parse_noError_iff seg hb hc
  rw [TCPHeader.length_eq] at hiff
  constructor
  · rintro ⟨hacc, -⟩ ⟨h0, hlen, hsmall⟩
    obtain ⟨-, -, hlarge, -⟩ := hacc.mp (hiff.mpr ⟨h0, hlen, Or.inl hsmall⟩)
    omega
  · intro hno
    have hlarge : internetChecksum c b = 0 → 20 ≤ b.length → 5 ≤ TCPHeader.dataOffset b := by
      intro h0 hlen
      by_contra hsmall
      exact hno ⟨h0, hlen, by omega⟩
    refine ⟨?_, fun hok => ?_⟩
    · rw [hiff]
      constructor
      · rintro ⟨h0, hlen, hoff⟩
        have := hlarge h0 hlen
        exact ⟨h0, hlen, this, by omega⟩
      · rintro ⟨h0, hlen, -, hfits⟩
        exact ⟨h0, hlen, Or.inr hfits⟩
    · obtain ⟨h0, hlen, -⟩ := hiff.mp hok
      have := hlarge h0 hlen
      obtain ⟨hread, hpayload⟩ := parse_of_noError hb hc hok
      rw [max_eq_right (by rw [TCPHeader.length_eq]; omega)] at hpayload
      exact ⟨hread, hpayload⟩

/-- Twenty bytes with data offset 5. -/
theorem segment_accepted_iff_bare :
    (TCPSegment.parse {} [0, 1, 0, 2, 0, 0, 0, 3, 0, 0, 0, 4, 0x50, 2, 0, 5, 0xaf, 0xee, 0, 0]
      0).1 = .noError ↔
    TCPSegment.Conforms 0
      [0, 1, 0, 2, 0, 0, 0, 3, 0, 0, 0, 4, 0x50, 2, 0, 5, 0xaf, 0xee, 0, 0] :=
  ((segment_accepted_iff {} [0, 1, 0, 2, 0, 0, 0, 3, 0, 0, 0, 4, 0x50, 2, 0, 5, 0xaf, 0xee, 0, 0] 0
    (by decide) (by decide)).mpr (by decide)).1

/-- A header of 20 bytes with a right checksum, but a data offset of 4. -/
theorem short_header_is_accepted :
    (TCPSegment.parse {} [0, 0, 0, 0, 0, 0, 0, 0, 0, 0, 0, 0, 0x40, 0, 0, 0, 0xbf, 0xff, 0, 0]
      0).1 = .noError ∧
    (TCPHeader.parse
      { buffer := [0, 0, 0, 0, 0, 0, 0, 0, 0, 0, 0, 0, 0x40, 0, 0, 0, 0xbf, 0xff, 0, 0] }).1 =
      .headerTooShort ∧
    ¬ TCPSegment.Conforms 0
      [0, 0, 0, 0, 0, 0, 0, 0, 0, 0, 0, 0, 0x40, 0, 0, 0, 0xbf, 0xff, 0, 0] := by
  decide +kernel

/-! ## Encoding what was decoded -/

/-- The segment that was read from `b` is encoded as `b`, with another checksum. -/
theorem TCPSegment.encoded_of_readFrom {seg : TCPSegment} {b : List UInt8}
    (hr : TCPHeader.ReadFrom b seg.header) (hdoff : seg.header.doff.toNat = 5)
    (hlen : 20 ≤ b.length) (hpayload : seg.payload = b.drop 20)
    (hnibble : field b 12 1 % 16 = 0) (hbits : field b 13 1 < 64) (cksum : Nat) :
    seg.encoded cksum = b.take 16 ++ (toBytes 2 cksum ++ b.drop 18) := by
  have hfront : layout seg.header.beforeCksum = b.take 16 := by
    rw [hr.beforeCksum_eq hnibble hbits]
    exact layout_fields b [2, 2, 4, 4, 1, 1, 2] 0 (Nat.le_trans (by decide) hlen)
  have huptr : layout [(2, seg.header.uptr.toNat)] = (b.drop 18).take 2 := by
    rw [hr.uptr]
    exact layout_fields b [2] 18 hlen
  have hback : seg.afterCksum = b.drop 18 := by
    rw [afterCksum, huptr, hdoff, hpayload, show b.drop 20 = (b.drop 18).drop 2 by
      rw [List.drop_drop]]
    exact List.take_append_drop 2 (b.drop 18)
  rw [encoded, hfront, hback]

open TCPSegment in
/-- **Encoding undoes decoding.**  A byte string that is accepted, has no options and no reserved
bits set is what the segment is encoded as again; only a checksum field of `0xffff`, the other zero
of the one's complement, becomes `0x0000`. -/
theorem segment_encode_decode (seg₀ : TCPSegment) (b : List UInt8) (c : UInt32)
    (hb : b.length ≤ 65535) (hc : c.toNat < 2 ^ 31) (hok : (seg₀.parse b c).1 = .noError)
    (hdoff : (seg₀.parse b c).2.header.doff = 5) (hnibble : field b 12 1 % 16 = 0)
    (hbits : field b 13 1 < 64) :
    ∃ buffers, (seg₀.parse b c).2.serialize c = .ok buffers ∧
      buffers.contents =
        if field b 16 2 = 0xffff then b.take 16 ++ ([0, 0] ++ b.drop 18) else b := by
  obtain ⟨hcheck, hlen, -⟩ := (parse_noError_iff seg₀ hb hc).mp hok
  rw [TCPHeader.length_eq] at hlen
  obtain ⟨hr, hpayload⟩ := parse_of_noError hb hc hok
  generalize (seg₀.parse b c).2 = seg at hdoff hr hpayload
  have hdoff : seg.header.doff.toNat = 5 := congrArg UInt8.toNat hdoff
  rw [← hr.doff, hdoff] at hpayload
  have hencoded := encoded_of_readFrom hr hdoff hlen hpayload hnibble hbits
  have hsame : seg.encoded (field b 16 2) = b := by
    rw [hencoded, toBytes_field (by omega), show b.drop 18 = (b.drop 16).drop 2 by
      rw [List.drop_drop], List.take_append_drop, List.take_append_drop]
  have hspec : ∃ buffers, seg.serialize c = .ok buffers ∧
      buffers.contents = seg.encoded (internetChecksum c (seg.encoded 0)) :=
    serialize_spec (by omega)
      (by rw [hpayload, List.length_drop, TCPHeader.length_eq]; omega) hc
  obtain ⟨buffers, hser, hcat⟩ := hspec
  refine ⟨buffers, hser, ?_⟩
  rw [hcat]
  rw [← hsame] at hcheck
  rcases checksum_encoded_unique (by omega) (by omega) (field_lt b 16 2) hcheck with
    ⟨hne, heq⟩ | ⟨hones, hzero⟩
  · rw [← heq, hsame, if_neg hne]
  · rw [hzero, hencoded, if_pos hones]
    rfl

/-- The second string has the other zero in its checksum field. -/
theorem segment_encode_decode_zeros :
    (∃ buffers, (TCPSegment.parse {}
        [0, 1, 0, 2, 0, 0, 0, 3, 0, 0, 0, 4, 0x50, 2, 0, 5, 0xaf, 0xee, 0, 0, 0]
        0).2.serialize 0 = .ok buffers ∧
      buffers.contents =
        [0, 1, 0, 2, 0, 0, 0, 3, 0, 0, 0, 4, 0x50, 2, 0, 5, 0xaf, 0xee, 0, 0, 0]) ∧
    ∃ buffers, (TCPSegment.parse {}
        [0xaf, 0xff, 0, 0, 0, 0, 0, 0, 0, 0, 0, 0, 0x50, 0, 0, 0, 0xff, 0xff, 0, 0]
        0).2.serialize 0 = .ok buffers ∧
      buffers.contents =
        [0xaf, 0xff, 0, 0, 0, 0, 0, 0, 0, 0, 0, 0, 0x50, 0, 0, 0, 0, 0, 0, 0] := by
  refine ⟨?_, ?_⟩
  · obtain ⟨buffers, hser, hcat⟩ := segment_encode_decode {}
      [0, 1, 0, 2, 0, 0, 0, 3, 0, 0, 0, 4, 0x50, 2, 0, 5, 0xaf, 0xee, 0, 0, 0] 0
      (by decide) (by decide) (by decide +kernel) (by decide +kernel) (by decide) (by decide)
    exact ⟨buffers, hser, hcat.trans (by decide)⟩
  · obtain ⟨buffers, hser, hcat⟩ := segment_encode_decode {}
      [0xaf, 0xff, 0, 0, 0, 0, 0, 0, 0, 0, 0, 0, 0x50, 0, 0, 0, 0xff, 0xff, 0, 0] 0
      (by decide) (by decide) (by decide +kernel) (by decide +kernel) (by decide) (by decide)
    exact ⟨buffers, hser, hcat.trans (by decide)⟩

end Sponge
