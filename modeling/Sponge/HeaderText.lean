import Sponge.Lib.Strings
import Sponge.Ostream
import Sponge.Segment
import Sponge.WrappingIntegers

/-!
# Headers as text

`TCPHeader::to_string`, `TCPHeader::summary` and `TCPHeader::operator==` (tcp_header.cc).  A text
consists of values, each followed by a label that does not start with a letter or a digit, so that
the values can be told apart (`interleave_injective`).  `header_text` says which headers have the
same text.
-/

namespace Sponge

open Strings

/-! ## The functions -/

namespace TCPHeader

/-- A line with a number. -/
def entry (ss : Ostream) (label : String) (n : Nat) : Ostream :=
  ((ss.string label.toList).number n).string ['\n']

def toString (h : TCPHeader) : List Char :=
  let ss := ({} : Ostream).hex.boolalpha
  let ss := entry ss "TCP source port: " h.sport.toNat
  let ss := entry ss "TCP dest port: " h.dport.toNat
  let ss := entry ss "TCP seqno: " h.seqno.rawValue.toNat
  let ss := entry ss "TCP ackno: " h.ackno.rawValue.toNat
  let ss := entry ss "TCP doff: " h.doff.toNat
  let ss := (ss.string "Flags: urg: ".toList).bool h.urg
  let ss := (ss.string " ack: ".toList).bool h.ack
  let ss := (ss.string " psh: ".toList).bool h.psh
  let ss := (ss.string " rst: ".toList).bool h.rst
  let ss := (ss.string " syn: ".toList).bool h.syn
  let ss := (ss.string " fin: ".toList).bool h.fin
  let ss := ss.string ['\n']
  let ss := entry ss "TCP winsize: " h.win.toNat
  let ss := entry ss "TCP cksum: " h.cksum.toNat
  let ss := entry ss "TCP uptr: " h.uptr.toNat
  ss.text

def summary (h : TCPHeader) : List Char :=
  let ss : Ostream := {}
  let ss := ss.string "Header(flags=".toList
  let ss := ss.string (if h.syn then "S" else "").toList
  let ss := ss.string (if h.ack then "A" else "").toList
  let ss := ss.string (if h.rst then "R" else "").toList
  let ss := ss.string (if h.fin then "F" else "").toList
  let ss := (ss.string ",seqno=".toList).number h.seqno.rawValue.toNat
  let ss := (ss.string ",ack=".toList).number h.ackno.rawValue.toNat
  let ss := (ss.string ",win=".toList).number h.win.toNat
  let ss := ss.string ")".toList
  ss.text

/-- `operator==`. -/
def eq (h other : TCPHeader) : Bool :=
  h.seqno.rawValue == other.seqno.rawValue && h.ackno.rawValue == other.ackno.rawValue &&
    h.doff == other.doff && h.urg == other.urg && h.ack == other.ack && h.psh == other.psh &&
    h.rst == other.rst && h.syn == other.syn && h.fin == other.fin && h.win == other.win &&
    h.uptr == other.uptr

/-! ## Their values and labels -/

def boolText (b : Bool) : List Char := (if b then "true" else "false").toList

/-- The flags of `to_string`. -/
def hexFlags : FmtFlags := { base := .hex, boolalpha := true }

def values (h : TCPHeader) : List (List Char) :=
  [hexFlags.digits h.sport.toNat, hexFlags.digits h.dport.toNat,
    hexFlags.digits h.seqno.rawValue.toNat, hexFlags.digits h.ackno.rawValue.toNat,
    hexFlags.digits h.doff.toNat, boolText h.urg, boolText h.ack, boolText h.psh, boolText h.rst,
    boolText h.syn, boolText h.fin, hexFlags.digits h.win.toNat, hexFlags.digits h.cksum.toNat,
    hexFlags.digits h.uptr.toNat]

def labels : List (List Char) :=
  ["\nTCP dest port: ".toList, "\nTCP seqno: ".toList, "\nTCP ackno: ".toList,
    "\nTCP doff: ".toList, "\nFlags: urg: ".toList, " ack: ".toList, " psh: ".toList,
    " rst: ".toList, " syn: ".toList, " fin: ".toList, "\nTCP winsize: ".toList,
    "\nTCP cksum: ".toList, "\nTCP uptr: ".toList, "\n".toList]

theorem toString_eq (h : TCPHeader) :
    h.toString = "TCP source port: ".toList ++ interleave h.values labels := by
  have hbool : ∀ (t : List Char) (b : Bool), Ostream.bool ⟨hexFlags, ' ', 0, t⟩ b =
      ⟨hexFlags, ' ', 0, t ++ boolText b⟩ := fun t b => Ostream.string_eq t _
  have hflags : ({} : Ostream).hex.boolalpha = ⟨hexFlags, ' ', 0, []⟩ := rfl
  have hshow : hexFlags.showbase = false := rfl
  simp [toString, entry, hflags, Ostream.string_eq, Ostream.number_eq hshow, hbool, interleave,
    values, labels]

theorem isLabel_labels : ∀ l ∈ labels, IsLabel l := by
  unfold IsLabel
  decide +kernel

theorem isValue_digits (flags : FmtFlags) (n : Nat) : IsValue (flags.digits n) :=
  List.all_eq_true.mpr fun _ => isAlphanum_of_mem_digits

theorem isValue_boolText (b : Bool) : IsValue (boolText b) := by
  unfold IsValue
  cases b <;> decide +kernel

theorem boolText_injective {b b' : Bool} (h : boolText b = boolText b') : b = b' := by
  revert h
  cases b <;> cases b' <;> decide +kernel

theorem isValue_values (h : TCPHeader) : ∀ v ∈ h.values, IsValue v := by
  simp [values, isValue_digits, isValue_boolText]

/-- The flags of a summary. -/
def flagsText (h : TCPHeader) : List Char :=
  (if h.syn then "S" else "").toList ++ (if h.ack then "A" else "").toList ++
    (if h.rst then "R" else "").toList ++ (if h.fin then "F" else "").toList

def summaryValues (h : TCPHeader) : List (List Char) :=
  [h.flagsText, FmtFlags.digits {} h.seqno.rawValue.toNat,
    FmtFlags.digits {} h.ackno.rawValue.toNat, FmtFlags.digits {} h.win.toNat]

def summaryLabels : List (List Char) :=
  [",seqno=".toList, ",ack=".toList, ",win=".toList, ")".toList]

theorem summary_eq (h : TCPHeader) :
    h.summary = "Header(flags=".toList ++ interleave h.summaryValues summaryLabels := by
  have hshow : FmtFlags.showbase {} = false := rfl
  simp [summary, Ostream.string_eq, Ostream.number_eq hshow, interleave, summaryValues,
    summaryLabels, flagsText]

theorem isLabel_summaryLabels : ∀ l ∈ summaryLabels, IsLabel l := by
  unfold IsLabel
  decide +kernel

/-- Every flag has a letter of its own. -/
theorem flagsText_spec (h : TCPHeader) : IsValue h.flagsText ∧
    ('S' ∈ h.flagsText ↔ h.syn = true) ∧ ('A' ∈ h.flagsText ↔ h.ack = true) ∧
    ('R' ∈ h.flagsText ↔ h.rst = true) ∧ ('F' ∈ h.flagsText ↔ h.fin = true) := by
  unfold IsValue flagsText
  cases h.syn <;> cases h.ack <;> cases h.rst <;> cases h.fin <;> decide +kernel

theorem isValue_summaryValues (h : TCPHeader) : ∀ v ∈ h.summaryValues, IsValue v := by
  simp [summaryValues, isValue_digits, (flagsText_spec h).1]

theorem toString_injective {h h' : TCPHeader} (heq : h.toString = h'.toString) : h = h' := by
  rw [toString_eq, toString_eq] at heq
  have hvalues := interleave_injective isLabel_labels h.isValue_values h'.isValue_values rfl rfl
    (List.append_cancel_left heq)
  simp only [values, List.cons.injEq, and_true] at hvalues
  obtain ⟨hsport, hdport, hseqno, hackno, hdoff, hurg, hack, hpsh, hrst, hsyn, hfin, hwin, hcksum,
    huptr⟩ := hvalues
  cases h
  cases h'
  simp only [mk.injEq]
  exact ⟨UInt16.toNat_inj.mp (digits_injective hsport),
    UInt16.toNat_inj.mp (digits_injective hdport),
    WrappingInt32.ext_toNat (digits_injective hseqno),
    WrappingInt32.ext_toNat (digits_injective hackno),
    UInt8.toNat_inj.mp (digits_injective hdoff), boolText_injective hurg,
    boolText_injective hack, boolText_injective hpsh, boolText_injective hrst,
    boolText_injective hsyn, boolText_injective hfin,
    UInt16.toNat_inj.mp (digits_injective hwin), UInt16.toNat_inj.mp (digits_injective hcksum),
    UInt16.toNat_inj.mp (digits_injective huptr)⟩

theorem of_summary_eq {h h' : TCPHeader} (heq : h.summary = h'.summary) :
    h.seqno = h'.seqno ∧ h.ackno = h'.ackno ∧ h.win = h'.win ∧ h.syn = h'.syn ∧ h.ack = h'.ack ∧
      h.rst = h'.rst ∧ h.fin = h'.fin := by
  rw [summary_eq, summary_eq] at heq
  have hvalues := interleave_injective isLabel_summaryLabels h.isValue_summaryValues
    h'.isValue_summaryValues rfl rfl (List.append_cancel_left heq)
  simp only [summaryValues, List.cons.injEq, and_true] at hvalues
  obtain ⟨hflags, hseqno, hackno, hwin⟩ := hvalues
  obtain ⟨-, hsyn, hack, hrst, hfin⟩ := h.flagsText_spec
  obtain ⟨-, hsyn', hack', hrst', hfin'⟩ := h'.flagsText_spec
  rw [hflags] at hsyn hack hrst hfin
  exact ⟨WrappingInt32.ext_toNat (digits_injective hseqno),
    WrappingInt32.ext_toNat (digits_injective hackno),
    UInt16.toNat_inj.mp (digits_injective hwin),
    Bool.eq_iff_iff.mpr (hsyn.symm.trans hsyn'), Bool.eq_iff_iff.mpr (hack.symm.trans hack'),
    Bool.eq_iff_iff.mpr (hrst.symm.trans hrst'), Bool.eq_iff_iff.mpr (hfin.symm.trans hfin')⟩

end TCPHeader

/-- **What the text of a header shows.**  `to_string` shows every field: headers with the same text
are the same.  `summary` shows the numbers, the window and four flags.  `operator==` compares
everything but the ports and the checksum. -/
theorem header_text (h h' : TCPHeader) :
    (h.toString = h'.toString ↔ h = h') ∧
    (h.summary = h'.summary ↔ h.seqno = h'.seqno ∧ h.ackno = h'.ackno ∧ h.win = h'.win ∧
      h.syn = h'.syn ∧ h.ack = h'.ack ∧ h.rst = h'.rst ∧ h.fin = h'.fin) ∧
    (h.eq h' = true ↔
      h = { h' with sport := h.sport, dport := h.dport, cksum := h.cksum }) := by
  refine ⟨⟨TCPHeader.toString_injective, congrArg _⟩, ⟨TCPHeader.of_summary_eq, ?_⟩, ?_⟩
  · rintro ⟨hseqno, hackno, hwin, hsyn, hack, hrst, hfin⟩
    rw [TCPHeader.summary_eq, TCPHeader.summary_eq, TCPHeader.summaryValues,
      TCPHeader.summaryValues, TCPHeader.flagsText, TCPHeader.flagsText, hseqno, hackno, hwin,
      hsyn, hack, hrst, hfin]
  · obtain ⟨sport, dport, ⟨seqno⟩, ⟨ackno⟩, _⟩ := h
    obtain ⟨sport', dport', ⟨seqno'⟩, ⟨ackno'⟩, _⟩ := h'
    simp [TCPHeader.eq, and_assoc]

example : TCPHeader.summary { syn := true, seqno := ⟨7⟩, win := 10 } =
    "Header(flags=S,seqno=7,ack=0,win=10)".toList := by
  decide +kernel

end Sponge
