import Std.Data.ExtTreeSet
import ChipEight.AddressSpace
import ChipEight.Instruction

/-!
# Listings

A program is listed word by word, as if it stood in memory from 0x200 on; an odd byte at the
end is left out. Addresses have sixteen bits, so those of an oversized program wrap. A word
that no pattern accepts is listed as two bytes of data.

The places that jumps, calls and index loads refer to are labels. Where a word stands at a
label, a line with the name of the label precedes it, and from there on lines are indented
by a tab, up to and including the next return.

## Main definitions

- `Entry`: a word and its address
- `Disassembly.ofProgram`: the entries and labels of a program
- `Disassembly.lines`: the listing
-/

namespace ChipEight

/-- A word of a program and the address it has when loaded. -/
structure Entry where
  address : Word
  word : Word
  deriving DecidableEq, Repr

namespace Entry

/-- The instruction that the word stands for, if any. -/
def instruction? (e : Entry) : Option Instruction := Instruction.decode e.word

def isData (e : Entry) : Bool := e.instruction?.isNone

/-- Whether the word is a return, which ends an indented block. -/
def isReturn (e : Entry) : Bool := e.instruction?.any fun i => i.operation == .ret

def label? (e : Entry) : Option Word := e.instruction?.bind Instruction.label?

def text (e : Entry) : String :=
  match e.instruction? with
  | some i => i.text
  | none =>
    ".byte " ++ Hex.padded 2 e.word.highByte.toNat ++ " " ++ Hex.padded 2 e.word.lowByte.toNat

end Entry

/-- The words of a program and the places they refer to. -/
structure Disassembly where
  entries : List Entry
  labels : Std.ExtTreeSet Word

namespace Disassembly

/-- The word at index `i` of a program, with its address. -/
def entry (program : Array UInt8) (i : Fin (program.size / 2)) : Entry where
  address := UInt16.ofNat (AddressSpace.programStart + 2 * i.val)
  word :=
    have h : 2 * i.val + 1 < program.size := by omega
    .ofBytes program[2 * i.val] program[2 * i.val + 1]

/-- Takes a program apart. -/
def ofProgram (program : Array UInt8) : Disassembly :=
  let entries := List.ofFn (entry program)
  { entries := entries
    labels := .ofList (entries.filterMap Entry.label?) }

/-! ## The lines of a listing -/

/-- The lines listed so far, and whether the next one still belongs to a labelled block. -/
structure Page where
  indented : Bool := false
  lines : Array String := #[]

/-- Lists one more entry. -/
def Page.add (labels : Std.ExtTreeSet Word) (page : Page) (e : Entry) : Page :=
  let opens := labels.contains e.address
  let indented := page.indented || opens
  let lines :=
    if opens then page.lines.push (Instruction.labelName e.address ++ ":") else page.lines
  { indented := indented && !e.isReturn
    lines := lines.push (if indented then "\t" ++ e.text else e.text) }

def lines (d : Disassembly) : List String :=
  (d.entries.foldl (Page.add d.labels) {}).lines.toList

theorem length_entries (program : Array UInt8) :
    (ofProgram program).entries.length = program.size / 2 := by
  simp [ofProgram]

theorem getElem?_entries {program : Array UInt8} {k : Nat} {e : Entry} :
    (ofProgram program).entries[k]? = some e ↔ ∃ hk, entry program ⟨k, hk⟩ = e := by
  simp [ofProgram, List.getElem?_ofFn]

/-- The labels are the places that the entries refer to. -/
theorem mem_labels {program : Array UInt8} {target : Word} :
    target ∈ (ofProgram program).labels ↔
      ∃ e ∈ (ofProgram program).entries, e.label? = some target := by
  simp only [ofProgram, Std.ExtTreeSet.mem_ofList, List.contains_iff_mem, List.mem_filterMap]

end Disassembly

end ChipEight
