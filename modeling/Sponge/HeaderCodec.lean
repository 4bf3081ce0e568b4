import Sponge.SegmentCodec

/-!
# Encoding and decoding headers

* `header_classified_iff`: when `TCPHeader::parse` returns the right result.  The data offset is
  tested before the error of the parser is looked at: a string that ends before its data offset, or
  that is cut off after a small one, is called a header that is too short, not a packet that is too
  short (`truncated_header_is_misclassified`).  No read goes past the end.
* `header_decode_encode_iff`: when a serialized header is read back as it was.  Only four bits of
  the data offset are written, but `serialize` accepts all eight (`wide_doff_is_lost`).
-/

namespace Sponge

open BigEndian

namespace TCPHeader

open NetParser

/-! ## With every access checked -/

/-- `parse`, with `none` for a read past the end. -/
def parseChecked (p : NetParser) : Option (ParseResult × TCPHeader × NetParser) :=
  parseWith .checked p

/-- No read of `parse` goes past the end. -/
theorem parseChecked_eq (p : NetParser) : parseChecked p = some (parse p) := by
  rw [parse_eq]
  exact parseWith_eq Access.faithful_checked p

/-! ## The result -/

/-- The data offset that is read, also from a string that ends before it. -/
theorem parseFields_doff (b : List UInt8) :
    (parseFields { buffer := b }).1.doff.toNat = dataOffset b := by
  have t0 : Took 0 { buffer := b } { buffer := b } := ⟨by simp, fun _ => rfl⟩
  have t12 := u32_took (u32_took (u16_took (u16_took t0)))
  have hbyte := u8_toNat_total t12 rfl
  have hu := Access.faithful_unchecked
  simp only [parseFields, parseFieldsWith, hu.u8, hu.u16, hu.u32, pure_bind, Id.run_pure]
  rw [shiftRight_four, hbyte, dataOffset]

theorem parseFields_sticky (p : NetParser) : Sticky p (parseFields p).2 := by
  have hports := u16_sticky (u16_sticky (show Sticky p p from Or.inl rfl))
  have hflags := u8_sticky (u8_sticky (u32_sticky (u32_sticky hports)))
  have hu := Access.faithful_unchecked
  simp only [parseFields, parseFieldsWith, hu.u8, hu.u16, hu.u32, pure_bind, Id.run_pure]
  exact u16_sticky (u16_sticky (u16_sticky hflags))

theorem parse_sticky (p : NetParser) : Sticky p (parse p).2.2 := by
  have hfields := parseFields_sticky p
  rw [parse_eq]
  split
  · exact hfields
  · exact hfields.trans (removePrefix_sticky _ _)

/-- The parser ends without an error, or there were too few bytes. -/
theorem parse_error (b : List UInt8) : (parse { buffer := b }).2.2.error =
    if TCPHeader.length ≤ b.length ∧ (dataOffset b < 5 ∨ 4 * dataOffset b ≤ b.length)
      then .noError else .packetTooShort := by
  have hiff := (parse_spec b).noError
  split
  · rename_i h
    exact hiff.mpr h
  · rename_i h
    rcases parse_sticky { buffer := b } with hno | hshort
    · exact absurd (hiff.mp hno) h
    · exact hshort

/-- **The result that `parse` returns**, for every string. -/
theorem parse_result (b : List UInt8) : (parse { buffer := b }).1 =
    if dataOffset b < 5 then .headerTooShort
    else if b.length < 20 ∨ b.length < 4 * dataOffset b then .packetTooShort else .noError := by
  rw [parse_fst, parse_header, parseFields_doff, parse_error, length_eq]
  split
  · rfl
  · rename_i hlarge
    by_cases hlen : b.length < 20 ∨ b.length < 4 * dataOffset b
    · rw [if_pos hlen, if_neg (by omega)]
    · rw [if_neg hlen, if_pos (by omega)]

/-- What is wrong with a string as a header: it has no 20 bytes, its data offset is not allowed, or
it is shorter than the data offset says. -/
def verdict (b : List UInt8) : ParseResult :=
  if b.length < 20 then .packetTooShort
  else if dataOffset b < 5 then .headerTooShort
  else if b.length < 4 * dataOffset b then .packetTooShort
  else .noError

/-- A string that ends before its data offset has none. -/
theorem le_length_of_dataOffset {b : List UInt8} (h : 5 ≤ dataOffset b) : 13 ≤ b.length := by
  by_contra hshort
  rw [dataOffset, field, List.drop_eq_nil_of_le (by omega)] at h
  exact absurd h (by decide)

theorem parse_result_eq_verdict_iff (b : List UInt8) :
    (parse { buffer := b }).1 = verdict b ↔
      20 ≤ b.length ∨ 13 ≤ b.length ∧ 5 ≤ dataOffset b := by
  have hoffset := le_length_of_dataOffset (b := b)
  rw [parse_result, verdict]
  by_cases hlen : b.length < 20
  · rw [if_pos hlen]
    by_cases hsmall : dataOffset b < 5
    · rw [if_pos hsmall]
      exact iff_of_false (by decide) (by omega)
    · rw [if_neg hsmall, if_pos (Or.inl hlen)]
      exact iff_of_true rfl (Or.inr ⟨hoffset (by omega), by omega⟩)
  · rw [if_neg hlen]
    refine iff_of_true ?_ (Or.inl (by omega))
    by_cases hsmall : dataOffset b < 5
    · rw [if_pos hsmall, if_pos hsmall]
    · rw [if_neg hsmall, if_neg hsmall]
      by_cases hcut : b.length < 4 * dataOffset b
      · rw [if_pos hcut, if_pos (Or.inr hcut)]
      · rw [if_neg hcut, if_neg (by omega)]

end TCPHeader

open TCPHeader in
/-- **When `TCPHeader::parse` classifies its input correctly.**  On a fresh parser it returns the
verdict, after `NoError` leaves exactly the bytes from `4 * doff` on, and never reads past the end,
if and only if there are 20 bytes, or the data offset is there and at least 5. -/
theorem header_classified_iff (b : List UInt8) :
    ((TCPHeader.parse { buffer := b }).1 = verdict b ∧
      ((TCPHeader.parse { buffer := b }).1 = .noError →
        (TCPHeader.parse { buffer := b }).2.2.buffer = b.drop (4 * dataOffset b)) ∧
      parseChecked { buffer := b } = some (TCPHeader.parse { buffer := b })) ↔
    20 ≤ b.length ∨ 13 ≤ b.length ∧ 5 ≤ dataOffset b := by
  rw [← parse_result_eq_verdict_iff]
  refine ⟨fun h => h.1, fun h => ⟨h, fun hok => ?_, parseChecked_eq _⟩⟩
  obtain ⟨hlen, hlarge, hfits⟩ := (TCPHeader.parse_noError_iff b).mp hok
  have hspec := parse_spec b
  rw [hspec.buffer (hspec.noError.mpr ⟨hlen, Or.inr hfits⟩),
    max_eq_right (by rw [length_eq]; omega)]

/-- Twelve bytes, none of which is the data offset, and sixteen bytes with a data offset of 4. -/
theorem truncated_header_is_misclassified :
    (TCPHeader.parse { buffer := [0, 1, 0, 2, 0, 0, 0, 3, 0, 0, 0, 4] }).1 = .headerTooShort ∧
    TCPHeader.verdict [0, 1, 0, 2, 0, 0, 0, 3, 0, 0, 0, 4] = .packetTooShort ∧
    (TCPHeader.parse { buffer := [0, 1, 0, 2, 0, 0, 0, 3, 0, 0, 0, 4, 0x40, 2, 0, 5] }).1 =
      .headerTooShort ∧
    TCPHeader.verdict [0, 1, 0, 2, 0, 0, 0, 3, 0, 0, 0, 4, 0x40, 2, 0, 5] = .packetTooShort := by
  decide

/-! ## Reading back what was written -/

namespace TCPHeader

variable {h : TCPHeader} {bytes : List UInt8}

/-- What `serialize` writes, if it does not throw. -/
theorem serialize_ok (hser : h.serialize = .ok bytes) :
    5 ≤ h.doff.toNat ∧ bytes = layout h.record ++ List.replicate (4 * h.doff.toNat - 20) 0 := by
  by_cases hdoff : 5 ≤ h.doff.toNat
  · exact ⟨hdoff, (Except.ok.inj ((serialize_eq hdoff).symm.trans hser)).symm⟩
  · have herror : h.serialize = .error "TCP header too short" :=
      if_pos (show h.doff < 5 from Nat.not_le.mp hdoff)
    rw [herror] at hser
    cases hser

/-- A header with a data offset that fits its four bits is read back. -/
theorem parse_serialize (hser : h.serialize = .ok bytes) (hmax : h.doff.toNat ≤ 15)
    (rest : List UInt8) :
    TCPHeader.parse { buffer := bytes ++ rest } = (.noError, h, { buffer := rest }) := by
  obtain ⟨hmin, rfl⟩ := serialize_ok hser
  generalize hb : layout h.record ++ List.replicate (4 * h.doff.toNat - 20) 0 ++ rest = b
  have hlen : b.length = 4 * h.doff.toNat + rest.length := by
    rw [← hb, List.length_append, List.length_append, layout_record_length, List.length_replicate]
    omega
  have hread : ReadFrom b h := by
    rw [← hb, List.append_assoc]
    exact readFrom_layout h hmax _
  have hspec := parse_spec b
  have hlong : TCPHeader.length ≤ b.length := by rw [length_eq]; omega
  have hheader := (hspec.readFrom hlong).unique hread
  have hoffset : dataOffset b = h.doff.toNat := hread.doff.symm
  have hok : (parse { buffer := b }).1 = .noError :=
    (parse_noError_iff b).mpr ⟨hlong, by omega, by omega⟩
  have herror : (parse { buffer := b }).2.2.error = .noError :=
    hspec.noError.mpr ⟨hlong, Or.inr (by omega)⟩
  have hbuffer : (parse { buffer := b }).2.2.buffer = rest := by
    rw [hspec.buffer herror, hoffset, max_eq_right (by rw [length_eq]; omega), ← hb]
    refine List.drop_left' ?_
    rw [List.length_append, layout_record_length, List.length_replicate]
    omega
  refine Prod.ext hok (Prod.ext hheader ?_)
  cases hp : (parse { buffer := b }).2.2 with
  | mk buffer error =>
    rw [hp] at herror hbuffer
    rw [show buffer = rest from hbuffer, show error = .noError from herror]

theorem parse_doff_le (b : List UInt8) : (parse { buffer := b }).2.1.doff.toNat ≤ 15 := by
  have hlt := field_lt b 12 1
  rw [parse_header, parseFields_doff, dataOffset]
  omega

end TCPHeader

/-- **When a header is read back as it was written.**  If `serialize` does not throw, then `parse`
on its result followed by `rest` returns `NoError`, every field of the header, and exactly `rest` in
the parser, if and only if the data offset fits its four bits. -/
theorem header_decode_encode_iff (h : TCPHeader) (bytes : List UInt8)
    (hser : h.serialize = .ok bytes) (rest : List UInt8) :
    TCPHeader.parse { buffer := bytes ++ rest } = (.noError, h, { buffer := rest }) ↔
      h.doff.toNat ≤ 15 := by
  constructor
  · intro heq
    have hle := TCPHeader.parse_doff_le (bytes ++ rest)
    rwa [heq] at hle
  · intro hmax
    exact TCPHeader.parse_serialize hser hmax rest

/-- Options of 40 bytes, and three bytes after them. -/
theorem header_decode_encode_longest :
    ∃ bytes, TCPHeader.serialize { sport := 80, doff := 15, ack := true, win := 7 } = .ok bytes ∧
      TCPHeader.parse { buffer := bytes ++ [1, 2, 3] } =
        (.noError, { sport := 80, doff := 15, ack := true, win := 7 },
          { buffer := [1, 2, 3] }) := by
  have hser := TCPHeader.serialize_eq (h := { sport := 80, doff := 15, ack := true, win := 7 })
    (by decide)
  exact ⟨_, hser, (header_decode_encode_iff _ _ hser [1, 2, 3]).mpr (by decide)⟩

/-- A data offset of 21 is written as 5: the options become part of the payload. -/
theorem wide_doff_is_lost :
    TCPHeader.serialize { doff := 21 } =
      .ok (List.replicate 12 0 ++ [0x50] ++ List.replicate 71 0) ∧
    TCPHeader.parse { buffer := List.replicate 12 0 ++ [0x50] ++ List.replicate 71 0 } =
      (.noError, { doff := 5 }, { buffer := List.replicate 64 0 }) ∧
    TCPHeader.parse { buffer := List.replicate 12 0 ++ [0x50] ++ List.replicate 71 0 } ≠
      (.noError, { doff := 21 }, { buffer := [] }) := by
  decide +kernel

end Sponge
