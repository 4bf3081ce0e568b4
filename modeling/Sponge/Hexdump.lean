import Sponge.Lib.Path
import Sponge.Lib.Strings
import Sponge.Ostream

/-!
# Hex dumps

`hexdump` (util.cc) prints bytes in rows of sixteen: the offset, the bytes as pairs of digits, and
the same bytes as characters.  It is written with the formatting state of `cout`, which outlives
it, and with a string stream whose text is overwritten from the front.

`hexdump_readable` says that both columns of every dump can be read back, and what becomes of the
formatting state.
-/

namespace Sponge

open Strings Transition

/-- A `stringstream`: its text and where it is written. -/
structure StringStream where
  text : List Char
  position : Nat
  deriving DecidableEq

namespace StringStream

/-- A stream made of a text, and `str(text)`: what is written replaces the text from its beginning
on. -/
def ofString (text : List Char) : StringStream := ⟨text, 0⟩

/-- `<< c`. -/
def put (s : StringStream) (c : Char) : StringStream :=
  ⟨s.text.take s.position ++ c :: s.text.drop (s.position + 1), s.position + 1⟩

end StringStream

/-! ## The dump -/

namespace Hexdump

/-- `isprint`, in the locale `"C"`. -/
def isprint (byte : UInt8) : Bool := 0x20 ≤ byte && byte ≤ 0x7e

/-- What stands for a byte in the second column. -/
def shown (byte : UInt8) : Char := if isprint byte then Char.ofNat byte.toNat else '.'

def spaces (n : Nat) : List Char := List.replicate n ' '

/-- The variables of the loop. -/
structure Loop where
  cout : Ostream
  pchars : StringStream
  printed : Nat
  deriving DecidableEq

/-- The body of the loop; `none` if `printed`, an `int`, overflows. -/
def printByte (indentString : List Char) (l : Loop) (byte : UInt8) : Option Loop :=
  let l :=
    if l.printed &&& 0xf = 0 then
      let l :=
        if l.printed ≠ 0 then
          { l with
            cout := ((l.cout.string (spaces 4)).string l.pchars.text).string ['\n']
            pchars := .ofString [' '] }
        else l
      { l with
        cout := (((l.cout.string indentString).setw 8).number l.printed).string
          (':' :: spaces 4) }
    else if l.printed &&& 1 = 0 then { l with cout := l.cout.string [' '] }
    else l
  let cout := (l.cout.setw 2).number byte.toNat
  let pchars := l.pchars.put (shown byte)
  if l.printed + 1 < 2 ^ 31 then some ⟨cout, pchars, l.printed + 1⟩ else none

def hexdump (cout : Ostream) (data : List UInt8) (indent : Nat) : Option Ostream :=
  let flags := cout.flags
  let indentString := spaces indent
  let cout := cout.hex.setfill '0'
  (run (printByte indentString) ⟨cout, .ofString [' '], 0⟩ data).map fun l =>
    -- extra spacing before final chars
    let printRem := (16 - (l.printed &&& 0xf)) % 16
    let cout := (l.cout.string (spaces (2 * printRem + printRem / 2 + 4))).string l.pchars.text
    let cout := (cout.string ['\n']).endl
    { cout with flags }

/-! ## What a number looks like -/

/-- Streams that print a number as its digits, with what fills it up in front. -/
structure Plain (flags : FmtFlags) : Prop where
  base : flags.base = .hex
  showbase : flags.showbase = false
  adjust : flags.adjust ≠ .left

/-- A number that is filled up with zeros. -/
def field (flags : FmtFlags) (width n : Nat) : List Char :=
  List.replicate (width - (flags.digits n).length) '0' ++ flags.digits n

/-- The two digits of a byte. -/
def pair (flags : FmtFlags) (byte : UInt8) : List Char :=
  [flags.digit (byte.toNat / 16), flags.digit (byte.toNat % 16)]

variable {flags : FmtFlags}

theorem number_eq (h : Plain flags) (t : List Char) (w n : Nat) :
    (Ostream.setw ⟨flags, '0', 0, t⟩ w).number n = ⟨flags, '0', 0, t ++ field flags w n⟩ := by
  have hadjust := h.adjust
  rw [Ostream.number, Ostream.insert]
  cases hcase : flags.adjust with
  | left => exact absurd hcase hadjust
  | right => simp [Ostream.setw, FmtFlags.mark, h.showbase, hcase, field]
  | internal => simp [Ostream.setw, FmtFlags.mark, h.showbase, hcase, field]

theorem field_byte (h : Plain flags) (byte : UInt8) :
    field flags 2 byte.toNat = pair flags byte := by
  have hlt := byte.toNat_lt
  have hradix : flags.base.radix = 16 := by rw [h.base]; rfl
  by_cases hzero : byte.toNat = 0
  · simp [field, pair, FmtFlags.digits, hzero, digit_zero]
  · by_cases hsmall : byte.toNat < 16
    · simp [field, pair, FmtFlags.digits, hzero, hradix, Nat.digits_of_lt 16 _ hzero hsmall,
        Nat.div_eq_of_lt hsmall, Nat.mod_eq_of_lt hsmall, digit_zero]
    · have hdigits : Nat.digits 16 byte.toNat = [byte.toNat % 16, byte.toNat / 16] := by
        rw [Nat.digits_def' (by decide) (by omega),
          Nat.digits_of_lt 16 (byte.toNat / 16) (by omega) (by omega)]
      simp [field, pair, FmtFlags.digits, hzero, hradix, hdigits]

theorem field_length (h : Plain flags) {n w : Nat} (hw : 0 < w) (hn : n < 16 ^ w) :
    (field flags w n).length = w := by
  have hradix : flags.base.radix = 16 := by rw [h.base]; rfl
  have hle : (flags.digits n).length ≤ w := by
    unfold FmtFlags.digits
    split
    · exact hw
    · rw [List.length_reverse, List.length_map, hradix]
      exact (Nat.digits_length_le_iff (by decide) n).mpr hn
  simp only [field, List.length_append, List.length_replicate]
  omega

/-- The digits of a byte are letters and digits, with its two halves as values. -/
theorem pair_spec (flags : FmtFlags) (byte : UInt8) :
    (∀ c ∈ pair flags byte, c.isAlphanum = true) ∧
      (pair flags byte).map digitValue = [byte.toNat / 16, byte.toNat % 16] := by
  have hlt := byte.toNat_lt
  obtain ⟨hhi, hhi'⟩ : (flags.digit (byte.toNat / 16)).isAlphanum = true ∧
    digitValue (flags.digit (byte.toNat / 16)) = byte.toNat / 16 := digit_spec (by omega)
  obtain ⟨hlo, hlo'⟩ : (flags.digit (byte.toNat % 16)).isAlphanum = true ∧
    digitValue (flags.digit (byte.toNat % 16)) = byte.toNat % 16 := digit_spec (by omega)
  constructor
  · simp [pair, hhi, hlo]
  · simp [pair, hhi', hlo']

/-! ## The layout -/

/-- A blank in front of every second byte but the first. -/
def gap (i : Nat) : List Char := if i ≠ 0 ∧ i % 2 = 0 then [' '] else []

/-- The digits of the bytes from the place `i` of a row on. -/
def column (flags : FmtFlags) : Nat → List UInt8 → List Char
  | _, [] => []
  | i, byte :: bytes => gap i ++ pair flags byte ++ column flags (i + 1) bytes

/-- A row up to its digits. -/
def head (flags : FmtFlags) (indent offset : Nat) (bytes : List UInt8) : List Char :=
  spaces indent ++ field flags 8 offset ++ ':' :: spaces 4 ++ column flags 0 bytes

/-- A row; its characters are at the place where those of a full row are. -/
def line (flags : FmtFlags) (indent offset : Nat) (bytes : List UInt8) : List Char :=
  head flags indent offset bytes ++ spaces (43 - (column flags 0 bytes).length) ++
    bytes.map shown

def lines (flags : FmtFlags) (indent : Nat) (rows : List (List UInt8)) : List (List Char) :=
  rows.zipIdx.map fun x => line flags indent (16 * x.2) x.1

theorem gap_of_even {i : Nat} (hi : i ≠ 0) (heven : i % 2 = 0) : gap i = [' '] :=
  if_pos ⟨hi, heven⟩

theorem gap_of_odd {i : Nat} (hodd : i % 2 ≠ 0) : gap i = [] := if_neg fun h => hodd h.2

theorem column_append (i : Nat) (xs ys : List UInt8) :
    column flags i (xs ++ ys) = column flags i xs ++ column flags (i + xs.length) ys := by
  induction xs generalizing i with
  | nil => rfl
  | cons x xs ih =>
    simp only [List.cons_append, column, ih, List.length_cons, List.append_assoc]
    rw [show i + 1 + xs.length = i + (xs.length + 1) by omega]

theorem column_length_of_pos {i : Nat} (hi : 0 < i) (xs : List UInt8) :
    (column flags i xs).length + (i - 1) / 2 = 2 * xs.length + (i + xs.length - 1) / 2 := by
  induction xs generalizing i with
  | nil => simp [column]
  | cons x xs ih =>
    have hrest := ih (Nat.lt_add_one_of_lt hi)
    rw [column, List.length_append, List.length_append, List.length_cons, pair]
    by_cases heven : i % 2 = 0
    · rw [gap_of_even (by omega) heven]
      simp only [List.length_cons, List.length_nil]
      omega
    · rw [gap_of_odd heven]
      simp only [List.length_cons, List.length_nil]
      omega

theorem column_length (flags : FmtFlags) (xs : List UInt8) :
    (column flags 0 xs).length = 2 * xs.length + (xs.length - 1) / 2 := by
  cases xs with
  | nil => rfl
  | cons x xs =>
    have hrest : (column flags (0 + 1) xs).length + 0 = 2 * xs.length + (1 + xs.length - 1) / 2 :=
      column_length_of_pos Nat.one_pos xs
    rw [column, show gap 0 = [] from rfl, List.nil_append, List.length_append, pair]
    simp only [List.length_cons, List.length_nil]
    omega

theorem head_append (indent offset : Nat) (xs : List UInt8) (byte : UInt8) :
    head flags indent offset (xs ++ [byte]) =
      head flags indent offset xs ++ gap xs.length ++ pair flags byte := by
  simp [head, column_append, column]

theorem lines_concat (indent : Nat) (rows : List (List UInt8)) (row : List UInt8) :
    lines flags indent (rows ++ [row]) =
      lines flags indent rows ++ [line flags indent (16 * rows.length) row] := by
  simp [lines, List.zipIdx_append]

/-! ## The loop -/

/-- The loop after the bytes `done`: the last row is not finished, even if it is full. -/
inductive Printing (flags : FmtFlags) (indent : Nat) (start : List Char) : List UInt8 → Loop → Prop
  | nothing :
    Printing flags indent start [] ⟨⟨flags, '0', 0, start⟩, .ofString [' '], 0⟩
  | rows (rows : List (List UInt8)) (cur : List UInt8) (hfull : ∀ row ∈ rows, row.length = 16)
      (hcur : cur ≠ []) (hle : cur.length ≤ 16) :
    Printing flags indent start (rows.flatten ++ cur)
      { cout := ⟨flags, '0', 0, start ++ unlines (lines flags indent rows) ++
          head flags indent (16 * rows.length) cur⟩
        pchars := ⟨cur.map shown, cur.length⟩
        printed := 16 * rows.length + cur.length }

theorem and_fifteen (n : Nat) : n &&& 0xf = n % 16 := Nat.and_two_pow_sub_one_eq_mod n 4

theorem and_one (n : Nat) : n &&& 1 = n % 2 := Nat.and_two_pow_sub_one_eq_mod n 1

theorem put_end (cs : List Char) (c : Char) :
    StringStream.put ⟨cs, cs.length⟩ c = ⟨cs ++ [c], (cs ++ [c]).length⟩ := by
  simp [StringStream.put]

/-- The first byte. -/
theorem printByte_first (h : Plain flags) (indent : Nat) (start : List Char) (byte : UInt8) :
    printByte (spaces indent) ⟨⟨flags, '0', 0, start⟩, .ofString [' '], 0⟩ byte =
      some ⟨⟨flags, '0', 0, start ++ head flags indent 0 [byte]⟩, ⟨[shown byte], 1⟩, 1⟩ := by
  simp [printByte, Ostream.string_eq, number_eq h, field_byte h, head, column, gap,
    StringStream.put, StringStream.ofString]

/-- A byte that starts a new row. -/
theorem printByte_newRow (h : Plain flags) (indent : Nat) {t cs : List Char} {k p : Nat}
    (byte : UInt8) (hp : p % 16 = 0) (hpos : p ≠ 0) (hlt : p + 1 < 2 ^ 31) :
    printByte (spaces indent) ⟨⟨flags, '0', 0, t⟩, ⟨cs, k⟩, p⟩ byte =
      some ⟨⟨flags, '0', 0, t ++ spaces 4 ++ cs ++ ['\n'] ++ head flags indent p [byte]⟩,
        ⟨[shown byte], 1⟩, p + 1⟩ := by
  simp only [printByte, and_fifteen, hp, if_true, if_pos hpos, if_pos hlt]
  simp [Ostream.string_eq, number_eq h, field_byte h, head, column, gap, StringStream.put,
    StringStream.ofString]

/-- Another byte of a row. -/
theorem printByte_sameRow (h : Plain flags) (indent : Nat) (t cs : List Char) {p : Nat}
    (byte : UInt8) (hp : p % 16 ≠ 0) (hlt : p + 1 < 2 ^ 31) :
    printByte (spaces indent) ⟨⟨flags, '0', 0, t⟩, ⟨cs, cs.length⟩, p⟩ byte =
      some ⟨⟨flags, '0', 0, t ++ gap (p % 16) ++ pair flags byte⟩,
        ⟨cs ++ [shown byte], (cs ++ [shown byte]).length⟩, p + 1⟩ := by
  simp only [printByte, and_fifteen, and_one, if_neg hp]
  by_cases heven : p % 2 = 0
  · rw [if_pos heven, gap_of_even hp (by omega), Ostream.string_eq, number_eq h, field_byte h,
      put_end, if_pos hlt]
  · rw [if_neg heven, gap_of_odd (by omega), number_eq h, field_byte h, put_end, if_pos hlt,
      List.append_nil]

theorem flatten_length {rows : List (List UInt8)} (hfull : ∀ row ∈ rows, row.length = 16) :
    rows.flatten.length = 16 * rows.length := by
  induction rows with
  | nil => rfl
  | cons row rows ih =>
    rw [List.flatten_cons, List.length_append, hfull row List.mem_cons_self,
      ih fun r hr => hfull r (List.mem_cons_of_mem _ hr), List.length_cons]
    omega

/-- Whether a byte starts a row depends on how full the last one is. -/
theorem Printing.step (h : Plain flags) {indent : Nat} {start : List Char} {done : List UInt8}
    {l : Loop} (hl : Printing flags indent start done l) (byte : UInt8)
    (hlt : done.length + 1 < 2 ^ 31) :
    ∃ l', printByte (spaces indent) l byte = some l' ∧
      Printing flags indent start (done ++ [byte]) l' := by
  cases hl with
  | nothing =>
    refine ⟨_, printByte_first h indent start byte, ?_⟩
    have hnext : Printing flags indent start ([].flatten ++ [byte]) _ :=
      .rows [] [byte] (by simp) (by simp) (by simp)
    simpa [lines, unlines] using hnext
  | rows rows cur hfull hcur hle =>
    have hpos := List.length_pos_iff.mpr hcur
    rw [List.length_append, flatten_length hfull] at hlt
    by_cases hc : cur.length = 16
    · -- a full row is finished when the next byte comes
      refine ⟨_, printByte_newRow h indent byte (by omega) (by omega) hlt, ?_⟩
      have hnext : Printing flags indent start ((rows ++ [cur]).flatten ++ [byte]) _ :=
        .rows (rows ++ [cur]) [byte] (by simpa [or_imp, forall_and, hc] using hfull) (by simp)
          (by simp)
      rw [lines_concat, unlines_concat, line, column_length, hc] at hnext
      simpa [hc, Nat.mul_add] using hnext
    · have hmod : (16 * rows.length + cur.length) % 16 = cur.length := by omega
      have hstep := printByte_sameRow h indent (start ++ unlines (lines flags indent rows) ++
        head flags indent (16 * rows.length) cur) (cur.map shown) byte
        (p := 16 * rows.length + cur.length) (by omega) hlt
      rw [List.length_map] at hstep
      refine ⟨_, hstep, ?_⟩
      have hnext : Printing flags indent start (rows.flatten ++ (cur ++ [byte])) _ :=
        .rows rows (cur ++ [byte]) hfull (by simp) (by rw [List.length_append]; simp; omega)
      rw [head_append] at hnext
      simpa [hmod, Nat.add_assoc] using hnext

/-- The whole loop. -/
theorem Printing.run (h : Plain flags) (indent : Nat) (start : List Char) (data : List UInt8) :
    ∀ {done : List UInt8} {l : Loop}, Printing flags indent start done l →
      done.length + data.length < 2 ^ 31 →
      ∃ l', run (printByte (spaces indent)) l data = some l' ∧
        Printing flags indent start (done ++ data) l' := by
  induction data with
  | nil =>
    intro done l hl _
    exact ⟨l, rfl, by rwa [List.append_nil]⟩
  | cons byte data ih =>
    intro done l hl hlt
    rw [List.length_cons] at hlt
    obtain ⟨l₁, hstep, hl₁⟩ := hl.step h byte (by omega)
    obtain ⟨l', hrun, hl'⟩ := ih hl₁ (by rw [List.length_append, List.length_singleton]; omega)
    refine ⟨l', by rw [run_cons, hstep, Option.bind_some, hrun], ?_⟩
    rwa [List.append_assoc] at hl'

/-- The padding of the last row brings its characters to the place of the others. -/
theorem padding_eq {k : Nat} (hpos : 0 < k) (hle : k ≤ 16) :
    2 * ((16 - k % 16) % 16) + (16 - k % 16) % 16 / 2 + 4 = 43 - (2 * k + (k - 1) / 2) := by
  interval_cases k <;> rfl

/-- **What is printed**: lines of sixteen bytes and less in the last one, and an empty line. -/
theorem hexdump_eq {o : Ostream} (hwidth : o.width = 0) (hshow : o.flags.showbase = false)
    (hadjust : o.flags.adjust ≠ .left) {data : List UInt8} (hne : data ≠ [])
    (hlen : data.length < 2 ^ 31) (indent : Nat) :
    ∃ rows : List (List UInt8), rows.flatten = data ∧ (∀ row ∈ rows, row.length ≤ 16) ∧
      16 * rows.length < data.length + 16 ∧
      hexdump o data indent = some { o with
        fill := '0'
        text := o.text ++
          (unlines (lines { o.flags with base := .hex } indent rows) ++ ['\n']) } := by
  obtain ⟨flags, fill, width, text⟩ := o
  obtain rfl : width = 0 := hwidth
  have hplain : Plain { flags with base := .hex } := ⟨rfl, hshow, hadjust⟩
  obtain ⟨l, hrun, hl⟩ := Printing.run hplain indent text data .nothing (by simpa using hlen)
  rw [List.nil_append] at hl
  rw [hexdump]
  cases hl with
  | nothing => exact absurd rfl hne
  | rows rows cur hfull hcur hle =>
    have hpos := List.length_pos_iff.mpr hcur
    refine ⟨rows ++ [cur], by simp, ?_, ?_, ?_⟩
    · intro row hrow
      rcases List.mem_append.mp hrow with hrow | hrow
      · exact (hfull row hrow).le
      · exact (congrArg List.length (List.mem_singleton.mp hrow)).trans_le hle
    · rw [List.length_append, List.length_append, flatten_length hfull, List.length_singleton]
      omega
    · have hmod : (16 * rows.length + cur.length) % 16 = cur.length % 16 := by omega
      simp only [Ostream.hex, Ostream.setfill] at hrun ⊢
      rw [hrun, Option.map_some, and_fifteen, hmod, padding_eq hpos hle, Ostream.string_eq,
        Ostream.string_eq, Ostream.string_eq, lines_concat, unlines_concat, line, column_length]
      simp [Ostream.endl]

/-! ## Reading -/

def decode : List Char → List UInt8
  | hi :: lo :: rest => UInt8.ofNat (16 * digitValue hi + digitValue lo) :: decode rest
  | _ => []

/-- The bytes that the digits of a line stand for. -/
def readDigits (indent : Nat) (line : List Char) : List UInt8 :=
  decode (((line.drop (indent + 13)).take 39).filter (· ≠ ' '))

/-- The characters of a line. -/
def readChars (indent : Nat) (line : List Char) : List Char := line.drop (indent + 56)

theorem decode_pairs (bytes : List UInt8) : decode (bytes.flatMap (pair flags)) = bytes := by
  induction bytes with
  | nil => rfl
  | cons byte bytes ih =>
    have hvalues := (pair_spec flags byte).2
    simp only [pair, List.map_cons, List.map_nil, List.cons.injEq, and_true] at hvalues
    rw [List.flatMap_cons, pair, List.cons_append, List.cons_append, List.nil_append, decode, ih,
      hvalues.1, hvalues.2, Nat.div_add_mod, UInt8.ofNat_toNat]

theorem filter_gap (i : Nat) : (gap i).filter (· ≠ ' ') = [] := by
  unfold gap
  split <;> rfl

theorem filter_spaces (n : Nat) : (spaces n).filter (· ≠ ' ') = [] := by
  simp [spaces]

theorem filter_column (i : Nat) (bytes : List UInt8) :
    (column flags i bytes).filter (· ≠ ' ') = bytes.flatMap (pair flags) := by
  induction bytes generalizing i with
  | nil => rfl
  | cons byte bytes ih =>
    have hpair : (pair flags byte).filter (· ≠ ' ') = pair flags byte := by
      refine List.filter_eq_self.mpr fun c hc => decide_eq_true ?_
      exact ne_of_isAlphanum ((pair_spec flags byte).1 c hc) (by decide)
    rw [column, List.filter_append, List.filter_append, filter_gap, hpair, ih, List.nil_append,
      List.flatMap_cons]

section

variable (h : Plain flags) (indent : Nat) {offset : Nat} (hoffset : offset < 16 ^ 8)
  {bytes : List UInt8} (hle : bytes.length ≤ 16)

include h hoffset

theorem margin_length : (spaces indent ++ field flags 8 offset ++ ':' :: spaces 4).length =
    indent + 13 := by
  simp only [spaces, List.length_append, List.length_replicate, List.length_cons,
    field_length h (by decide) hoffset]

include hle

theorem readDigits_line : readDigits indent (line flags indent offset bytes) = bytes := by
  have hcolumn := column_length flags bytes
  have htake : (column flags 0 bytes ++ (spaces (43 - (column flags 0 bytes).length) ++
      bytes.map shown)).take 39 =
      column flags 0 bytes ++ spaces (39 - (column flags 0 bytes).length) := by
    rw [List.take_append, List.take_of_length_le (by omega), List.take_append_of_le_length
      (by simp only [spaces, List.length_replicate]; omega), spaces, List.take_replicate,
      Nat.min_eq_left (by omega)]
    rfl
  rw [readDigits, line, head, List.append_assoc, List.append_assoc,
    List.drop_left' (margin_length h indent hoffset), htake, List.filter_append, filter_column,
    filter_spaces, List.append_nil, decode_pairs]

theorem readChars_line : readChars indent (line flags indent offset bytes) = bytes.map shown := by
  have hcolumn := column_length flags bytes
  have hmargin := margin_length h indent hoffset
  refine List.drop_left' ?_
  rw [head, List.length_append, List.length_append, hmargin, spaces, List.length_replicate]
  omega

end

theorem shown_ne (byte : UInt8) : shown byte ≠ '\n' := by
  unfold shown
  split
  · rename_i hprint
    have hrange : 32 ≤ byte.toNat ∧ byte.toNat ≤ 126 := by
      simpa [isprint, UInt8.le_iff_toNat_le] using hprint
    have hvalid : byte.toNat.isValidChar := Or.inl (by omega)
    intro heq
    rw [Char.ofNat, dif_pos hvalid] at heq
    have hnat : byte.toNat = 10 := congrArg Char.toNat heq
    omega
  · decide

theorem column_ne {i : Nat} {bytes : List UInt8} {c : Char} (hc : c ∈ column flags i bytes) :
    c ≠ '\n' := by
  induction bytes generalizing i with
  | nil => cases hc
  | cons byte bytes ih =>
    rw [column, List.mem_append, List.mem_append] at hc
    rcases hc with (hc | hc) | hc
    · unfold gap at hc
      split at hc
      · rw [List.mem_singleton.mp hc]
        decide
      · cases hc
    · exact ne_of_isAlphanum ((pair_spec flags byte).1 c hc) (by decide)
    · exact ih hc

theorem ne_of_mem_spaces {n : Nat} {c : Char} (hc : c ∈ spaces n) : c ≠ '\n' := by
  rw [(List.mem_replicate.mp hc).2]
  decide

theorem line_ne {indent offset : Nat} {bytes : List UInt8} {c : Char}
    (hc : c ∈ line flags indent offset bytes) : c ≠ '\n' := by
  simp only [line, head, field, List.mem_append, List.mem_cons, List.mem_map] at hc
  rcases hc with ((((hc | hc | hc) | hc | hc) | hc) | hc) | ⟨byte, -, rfl⟩
  · exact ne_of_mem_spaces hc
  · rw [(List.mem_replicate.mp hc).2]
    decide
  · exact ne_of_isAlphanum (isAlphanum_of_mem_digits hc) (by decide)
  · rw [hc]
    decide
  · exact ne_of_mem_spaces hc
  · exact column_ne hc
  · exact ne_of_mem_spaces hc
  · exact shown_ne byte

/-- A reader of lines reads the rows one after the other. -/
theorem flatMap_lines {α : Type} (indent : Nat) {rows : List (List UInt8)}
    (hrows : ∀ row ∈ rows, row.length ≤ 16) (hcount : 16 * rows.length < 16 ^ 8 + 16)
    {reader : List Char → List α} {f : UInt8 → α}
    (hread : ∀ offset bytes, offset < 16 ^ 8 → bytes.length ≤ 16 →
      reader (line flags indent offset bytes) = bytes.map f) :
    (lines flags indent rows).flatMap reader = rows.flatten.map f := by
  have hzip : rows.zipIdx.flatMap (fun x => reader (line flags indent (16 * x.2) x.1)) =
      rows.zipIdx.flatMap fun x => x.1.map f := by
    refine List.flatMap_congr fun x hx => ?_
    obtain ⟨-, hlt, hget⟩ := List.mem_zipIdx hx
    exact hread _ _ (by omega) (hrows _ (hget ▸ List.getElem_mem _))
  rw [lines, List.flatMap_map, hzip, List.map_flatten, ← List.flatMap_map, List.zipIdx_map_fst,
    List.flatMap_def]

/-- Of no bytes only blanks are printed. -/
theorem hexdump_nil {o : Ostream} (hwidth : o.width = 0) (indent : Nat) :
    hexdump o [] indent = some { o with
      fill := '0'
      text := o.text ++ (unlines [spaces 5] ++ ['\n']) } := by
  obtain ⟨flags, fill, width, text⟩ := o
  obtain rfl : width = 0 := hwidth
  simp [hexdump, Ostream.hex, Ostream.setfill, StringStream.ofString, Ostream.string_eq,
    Ostream.endl, unlines, spaces]

end Hexdump

open Hexdump

/-- **A hex dump can be read back.**  Unless the stream is set up to show the base of numbers, to
fill them up behind or to fill up what is printed next, the dump of any bytes is text whose digits
stand for the bytes and whose last column, which starts at the same place in every line, shows them.
The flags of the stream are as before; its fill character is not. -/
theorem hexdump_readable (o : Ostream) (hwidth : o.width = 0) (hshow : o.flags.showbase = false)
    (hadjust : o.flags.adjust ≠ .left) (data : List UInt8) (hlen : data.length < 2 ^ 31)
    (indent : Nat) :
    ∃ o' dump, hexdump o data indent = some o' ∧ o'.text = o.text ++ dump ∧
      (dump.splitOn '\n').flatMap (readDigits indent) = data ∧
      (dump.splitOn '\n').flatMap (readChars indent) = data.map shown ∧
      o'.flags = o.flags ∧ o'.width = 0 ∧ o'.fill = '0' := by
  have hdigits : readDigits indent [] = [] := by rw [readDigits, List.drop_nil]; rfl
  have hchars : readChars indent [] = [] := List.drop_nil
  by_cases hne : data = []
  · subst hne
    have hls : ∀ l ∈ [spaces 5], ∀ c ∈ l, c ≠ '\n' := by
      intro l hl c hc
      rw [List.mem_singleton.mp hl] at hc
      exact ne_of_mem_spaces hc
    have hshort : (spaces 5).length ≤ indent + 13 := by rw [spaces, List.length_replicate]; omega
    refine ⟨_, _, hexdump_nil hwidth indent, rfl, ?_, ?_, rfl, hwidth, rfl⟩
    · rw [flatMap_splitOn hls hdigits, List.flatMap_singleton, readDigits,
        List.drop_of_length_le hshort]
      rfl
    · rw [flatMap_splitOn hls hchars, List.flatMap_singleton, readChars,
        List.drop_of_length_le (by omega)]
      rfl
  · have hplain : Plain { o.flags with base := .hex } := ⟨rfl, hshow, hadjust⟩
    obtain ⟨rows, rfl, hrows, hcount, hdump⟩ := hexdump_eq hwidth hshow hadjust hne hlen indent
    have hls : ∀ l ∈ lines { o.flags with base := .hex } indent rows, ∀ c ∈ l, c ≠ '\n' := by
      intro l hl c hc
      obtain ⟨x, -, rfl⟩ := List.mem_map.mp hl
      exact line_ne hc
    refine ⟨_, _, hdump, rfl, ?_, ?_, rfl, hwidth, rfl⟩
    · rw [flatMap_splitOn hls hdigits, flatMap_lines indent hrows (by omega) (f := id)
        fun offset bytes ho hb => by rw [readDigits_line hplain indent ho hb, List.map_id],
        List.map_id]
    · rw [flatMap_splitOn hls hchars, flatMap_lines indent hrows (by omega)
        fun offset bytes ho hb => readChars_line hplain indent ho hb]

/-- Eighteen bytes on a stream that prints capital letters. -/
theorem hexdump_readable_rows :
    let data : List UInt8 := [72, 101, 120, 10, 255, 0, 1, 2, 3, 4, 5, 6, 7, 8, 9, 10, 33, 126]
    ∃ o' dump, hexdump ⟨{ uppercase := true }, ' ', 0, []⟩ data 2 = some o' ∧ o'.text = dump ∧
      dump = ("  00000000:    4865 780A FF00 0102 0304 0506 0708 090A    Hex.............\n" ++
        "  00000010:    217E                                       !~\n\n").toList ∧
      (dump.splitOn '\n').flatMap (readDigits 2) = data := by
  intro data
  obtain ⟨o', dump, hdump, htext, hread, -⟩ := hexdump_readable
    ⟨{ uppercase := true }, ' ', 0, []⟩ rfl rfl (by decide) data (by decide) 2
  have heval : (hexdump ⟨{ uppercase := true }, ' ', 0, []⟩ data 2).map Ostream.text =
      some ("  00000000:    4865 780A FF00 0102 0304 0506 0708 090A    Hex.............\n" ++
        "  00000010:    217E                                       !~\n\n").toList := by
    decide +kernel
  rw [hdump, Option.map_some, htext] at heval
  exact ⟨o', dump, hdump, htext, Option.some.inj heval, hread⟩

end Sponge
