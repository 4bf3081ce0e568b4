import Sponge.HeaderCodec

/-!
# Records of integers

What a caller of `NetParser` and `NetUnparser` does: it writes and reads integers of one, two and
four bytes one after the other, and looks at the error at the end.  `record_round_trip` says what it
gets, for every layout and every string: the integers, or an error and zeros from the first integer
on that is not there.  `parse_result_named` is about the names of the errors: the table of
`as_string` has one name less than there are errors, and the parsers here never return that error.
-/

namespace Sponge

open BigEndian

/-- The types of integers that a parser reads. -/
inductive Width
  | u8
  | u16
  | u32
  deriving DecidableEq, Repr

def Width.size : Width → Nat
  | .u8 => 1
  | .u16 => 2
  | .u32 => 4

namespace NetParser

/-- The next integer. -/
def get (p : NetParser) : Width → Nat × NetParser
  | .u8 => (p.u8.1.toNat, p.u8.2)
  | .u16 => (p.u16.1.toNat, p.u16.2)
  | .u32 => (p.u32.1.toNat, p.u32.2)

/-- The next integers, of the types given. -/
def getAll : List Width → NetParser → List Nat × NetParser
  | [], p => ([], p)
  | w :: ws, p =>
    let first := p.get w
    let others := getAll ws first.2
    (first.1 :: others.1, others.2)

end NetParser

namespace NetUnparser

/-- An integer at the end of `s`. -/
def put (s : List UInt8) : Width × Nat → List UInt8
  | (.u8, val) => u8 s (UInt8.ofNat val)
  | (.u16, val) => u16 s (UInt16.ofNat val)
  | (.u32, val) => u32 s (UInt32.ofNat val)

/-- Integers one after the other at the end of `s`. -/
def putAll (s : List UInt8) (fields : List (Width × Nat)) : List UInt8 := fields.foldl put s

theorem put_eq {w : Width} {val : Nat} (h : val < 2 ^ (8 * w.size)) (s : List UInt8) :
    put s (w, val) = s ++ toBytes w.size val := by
  cases w with
  | u8 => rw [put, u8, unparseInt_eq, UInt8.toNat_ofNat_of_lt' h, Width.size]
  | u16 => rw [put, u16, unparseInt_eq, UInt16.toNat_ofNat_of_lt' h, Width.size]
  | u32 => rw [put, u32, unparseInt_eq, UInt32.toNat_ofNat_of_lt' h, Width.size]

/-- What is written is the layout of the record. -/
theorem putAll_eq {fields : List (Width × Nat)} (h : ∀ x ∈ fields, x.2 < 2 ^ (8 * x.1.size)) :
    ∀ s, putAll s fields = s ++ layout (fields.map fun x => (x.1.size, x.2)) := by
  induction fields with
  | nil => exact fun s => (List.append_nil s).symm
  | cons x fields ih =>
    intro s
    rw [putAll, List.foldl_cons, put_eq (h x List.mem_cons_self), ← putAll,
      ih fun y hy => h y (List.mem_cons_of_mem _ hy), List.append_assoc]
    rfl

end NetUnparser

namespace NetParser

/-- The length of a record. -/
def total (ws : List Width) : Nat := (ws.map Width.size).sum

theorem total_cons (w : Width) (ws : List Width) : total (w :: ws) = w.size + total ws := rfl

variable {b : List UInt8} {n : Nat}

theorem parseInt_of_le (h : n ≤ b.length) :
    parseInt { buffer := b } n = (ofBytes (b.take n), { buffer := b.drop n }) := by
  have hcheck : checkSize { buffer := b } n = { buffer := b } := if_neg (Nat.not_lt.mpr h)
  have hsnd : (parseInt { buffer := b } n).2 = { buffer := b.drop n } := by
    rw [parseInt_snd, removePrefix, hcheck]
    rfl
  exact Prod.ext (parseInt_value (by rw [hsnd])) hsnd

theorem parseInt_of_lt (h : b.length < n) :
    parseInt { buffer := b } n = (0, { buffer := b, error := .packetTooShort }) := by
  have hcheck : checkSize { buffer := b } n = { buffer := b, error := .packetTooShort } := if_pos h
  rw [parseInt, hcheck]
  rfl

theorem parseInt_of_tooShort (b : List UInt8) (n : Nat) :
    parseInt { buffer := b, error := .packetTooShort } n =
      (0, { buffer := b, error := .packetTooShort }) := by
  have hcheck : checkSize { buffer := b, error := .packetTooShort } n =
      { buffer := b, error := .packetTooShort } := by
    unfold checkSize
    split <;> rfl
  rw [parseInt, hcheck]
  rfl

/-- The conversion to the type loses nothing. -/
theorem get_eq (p : NetParser) (w : Width) : p.get w = p.parseInt w.size := by
  have hlt : (p.parseInt w.size).1 < 2 ^ (8 * w.size) := by
    by_cases h : (p.parseInt w.size).2.error = .noError
    · have hlen := ((parseInt_took p w.size).noError.mp h).2
      have hbound := ofBytes_lt (p.buffer.take w.size)
      rwa [List.length_take, Nat.min_eq_left hlen, ← parseInt_value h] at hbound
    · rw [parseInt_of_error h]
      exact Nat.two_pow_pos _
  cases w with
  | u8 => exact Prod.ext (UInt8.toNat_ofNat_of_lt' hlt) rfl
  | u16 => exact Prod.ext (UInt16.toNat_ofNat_of_lt' hlt) rfl
  | u32 => exact Prod.ext (UInt32.toNat_ofNat_of_lt' hlt) rfl

theorem getAll_cons (w : Width) (ws : List Width) (p : NetParser) :
    getAll (w :: ws) p = ((p.parseInt w.size).1 :: (getAll ws (p.parseInt w.size).2).1,
      (getAll ws (p.parseInt w.size).2).2) := by
  rw [getAll, get_eq]

/-- After the error every integer is 0. -/
theorem getAll_of_tooShort (b : List UInt8) (ws : List Width) :
    getAll ws { buffer := b, error := .packetTooShort } =
      (List.replicate ws.length 0, { buffer := b, error := .packetTooShort }) := by
  induction ws with
  | nil => rfl
  | cons w ws ih =>
    rw [getAll_cons, parseInt_of_tooShort, ih]
    rfl

theorem parseInt_drop {off : Nat} (h : off + n ≤ b.length) :
    parseInt { buffer := b.drop off } n = (field b off n, { buffer := b.drop (off + n) }) := by
  rw [parseInt_of_le (by rw [List.length_drop]; omega), List.drop_drop, field]

/-- A record that is there is read whole. -/
theorem getAll_of_le (ws : List Width) : ∀ off, off + total ws ≤ b.length →
    getAll ws { buffer := b.drop off } =
      ((fields b off (ws.map Width.size)).map Prod.snd,
        { buffer := b.drop (off + total ws) }) := by
  induction ws with
  | nil => exact fun off _ => rfl
  | cons w ws ih =>
    intro off h
    rw [total_cons] at h
    rw [getAll_cons, parseInt_drop (by omega), ih _ (by omega), total_cons, Nat.add_assoc]
    rfl

/-- Where a record is too long, it is read up to the first integer that is not there. -/
theorem getAll_of_lt (ws : List Width) : ∀ off, off ≤ b.length → b.length < off + total ws →
    ∃ pre w post, ws = pre ++ w :: post ∧ off + total pre ≤ b.length ∧
      b.length < off + total pre + w.size ∧
      getAll ws { buffer := b.drop off } =
        ((fields b off (pre.map Width.size)).map Prod.snd ++ List.replicate (post.length + 1) 0,
          { buffer := b.drop (off + total pre), error := .packetTooShort }) := by
  induction ws with
  | nil =>
    intro off hoff h
    exact absurd h (Nat.not_lt.mpr hoff)
  | cons w ws ih =>
    intro off hoff h
    rw [total_cons] at h
    by_cases hfits : off + w.size ≤ b.length
    · obtain ⟨pre, w', post, rfl, hle, hlt, hget⟩ := ih (off + w.size) hfits (by omega)
      refine ⟨w :: pre, w', post, rfl, by rw [total_cons]; omega, by rw [total_cons]; omega, ?_⟩
      rw [getAll_cons, parseInt_drop hfits, hget, total_cons, Nat.add_assoc]
      rfl
    · refine ⟨[], w, ws, rfl, hoff, Nat.not_le.mp hfits, ?_⟩
      rw [getAll_cons, parseInt_of_lt (by rw [List.length_drop]; omega), getAll_of_tooShort]
      rfl

theorem fields_length (b : List UInt8) (lens : List Nat) :
    ∀ off, (fields b off lens).length = lens.length := by
  induction lens with
  | nil => exact fun _ => rfl
  | cons len lens ih => exact fun off => congrArg (· + 1) (ih (off + len))

end NetParser

/-- The integers of a record, with their types, are those that were read with their sizes. -/
theorem zip_fields (b : List UInt8) (ws : List Width) : ∀ off,
    (ws.zip ((fields b off (ws.map Width.size)).map Prod.snd)).map (fun x => (x.1.size, x.2)) =
      fields b off (ws.map Width.size) ∧
    ∀ x ∈ ws.zip ((fields b off (ws.map Width.size)).map Prod.snd), x.2 < 2 ^ (8 * x.1.size) := by
  induction ws with
  | nil => exact fun off => ⟨rfl, by simp⟩
  | cons w ws ih =>
    intro off
    obtain ⟨heq, hlt⟩ := ih (off + w.size)
    refine ⟨congrArg ((w.size, field b off w.size) :: ·) heq, fun x hx => ?_⟩
    rcases List.mem_cons.mp hx with rfl | hx
    · exact field_lt b off w.size
    · exact hlt x hx

/-- **Records go through unchanged.**  Integers written one after the other are read back, and
nothing else of the string is touched.  Integers that are read from a string that is long enough are
those it was written with; if it is too short, the integers before its end are right, the others are
0, and the error is `PacketTooShort`. -/
theorem record_round_trip (record : List (Width × Nat))
    (hrecord : ∀ x ∈ record, x.2 < 2 ^ (8 * x.1.size)) (rest : List UInt8) (ws : List Width)
    (b : List UInt8) :
    NetParser.getAll (record.map Prod.fst) { buffer := NetUnparser.putAll [] record ++ rest } =
      (record.map Prod.snd, { buffer := rest }) ∧
    (NetParser.total ws ≤ b.length →
      ∃ vals left, NetParser.getAll ws { buffer := b } = (vals, { buffer := left }) ∧
        vals.length = ws.length ∧ NetUnparser.putAll [] (ws.zip vals) ++ left = b) ∧
    (b.length < NetParser.total ws →
      ∃ pre w post, ws = pre ++ w :: post ∧ NetParser.total pre ≤ b.length ∧
        b.length < NetParser.total pre + w.size ∧
        NetParser.getAll ws { buffer := b } =
          ((NetParser.getAll pre { buffer := b }).1 ++ List.replicate (post.length + 1) 0,
            { buffer := b.drop (NetParser.total pre), error := .packetTooShort })) := by
  have hread : ∀ {b : List UInt8} {ws}, NetParser.total ws ≤ b.length →
      NetParser.getAll ws { buffer := b } =
        ((fields b 0 (ws.map Width.size)).map Prod.snd,
          { buffer := b.drop (NetParser.total ws) }) := by
    intro b ws h
    have hget := NetParser.getAll_of_le (b := b) ws 0 (by omega)
    rwa [List.drop_zero, Nat.zero_add] at hget
  refine ⟨?_, fun h => ?_, fun h => ?_⟩
  · have hput := NetUnparser.putAll_eq hrecord []
    rw [List.nil_append] at hput
    have hlen : NetParser.total (record.map Prod.fst) = (NetUnparser.putAll [] record).length := by
      rw [hput, layout_length, NetParser.total, List.map_map, List.map_map]
      rfl
    rw [hread (by rw [hlen, List.length_append]; omega), hlen, List.drop_left]
    have hfields := fields_layout (record.map fun x => (x.1.size, x.2)) rest []
    rw [List.nil_append, ← hput, List.length_nil, List.map_map, List.map_map] at hfields
    refine Prod.ext ?_ rfl
    rw [List.map_map]
    refine (congrArg (List.map Prod.snd) hfields).trans ?_
    rw [List.map_map]
    exact List.map_congr_left fun x hx => Nat.mod_eq_of_lt (hrecord x hx)
  · refine ⟨_, _, hread h, ?_, ?_⟩
    · rw [List.length_map, NetParser.fields_length, List.length_map]
    · obtain ⟨heq, hlt⟩ := zip_fields b ws 0
      rw [NetUnparser.putAll_eq hlt, heq, List.nil_append, layout_fields _ _ _ (by
        rw [Nat.zero_add]; exact h), List.drop_zero]
      exact List.take_append_drop _ _
  · obtain ⟨pre, w, post, hws, hle, hlt, hget⟩ :=
      NetParser.getAll_of_lt (b := b) ws 0 (Nat.zero_le _) (by omega)
    rw [Nat.zero_add] at hle hlt
    rw [List.drop_zero, Nat.zero_add] at hget
    refine ⟨pre, w, post, hws, hle, hlt, ?_⟩
    rw [hget, hread hle]

/-- A port and an address, with a byte after them; and a string of three bytes for two ports. -/
theorem record_round_trip_port :
    NetParser.getAll [.u16, .u32]
        { buffer := NetUnparser.putAll [] [(.u16, 80), (.u32, 0x7f000001)] ++ [9] } =
      ([80, 0x7f000001], { buffer := [9] }) ∧
    (NetParser.getAll [.u16, .u16] { buffer := [0, 80, 1] }).2.error = .packetTooShort := by
  obtain ⟨hround, -, hshort⟩ := record_round_trip [(.u16, 80), (.u32, 0x7f000001)] (by decide) [9]
    [.u16, .u16] [0, 80, 1]
  obtain ⟨pre, w, post, -, -, -, hget⟩ := hshort (by decide)
  exact ⟨hround, by rw [hget]⟩

/-! ## The names of the errors -/

namespace ParseResult

/-- The names in `as_string`. -/
def names : List String :=
  ["NoError", "BadChecksum", "PacketTooShort", "WrongIPVersion", "HeaderTooShort",
    "TruncatedPacket"]

/-- `static_cast<size_t>`. -/
def toNat : ParseResult → Nat
  | .noError => 0
  | .badChecksum => 1
  | .packetTooShort => 2
  | .wrongIPVersion => 3
  | .headerTooShort => 4
  | .truncatedPacket => 5
  | .unsupported => 6

/-- `as_string`; `none` stands for a read past the end of the names. -/
def asString (r : ParseResult) : Option String := names[r.toNat]?

end ParseResult

/-- **Every result of a parser has a name.**  Only for `Unsupported` does `as_string` read past the
end of its names, and neither `TCPHeader::parse` nor `TCPSegment::parse` returns that, whatever the
bytes are. -/
theorem parse_result_named (seg : TCPSegment) (b : List UInt8) (checksum : UInt32) :
    (∀ r : ParseResult, r.asString = none ↔ r = .unsupported) ∧
    (TCPHeader.parse { buffer := b }).1.asString.isSome ∧
    (TCPSegment.parse seg b checksum).1.asString.isSome := by
  refine ⟨fun r => by cases r <;> decide, ?_, ?_⟩
  · rw [TCPHeader.parse_result]
    split
    · rfl
    · split <;> rfl
  · have herror := TCPHeader.parse_error b
    unfold TCPSegment.parse
    dsimp only
    split
    · rfl
    · rw [herror]
      split <;> rfl

end Sponge
