import ChipEight.Listing
import ChipEight.Proofs.Guarded.Instruction

/-!
# Guarded listings

A program is taken apart word by word. The two bytes of a word are cut out of the program as a list
of bytes of which the first and the second are asked for, and its address is computed as a count
before it wraps round to a word.

## Main definitions

- `PlainDisassembly.ofProgram`: takes a program apart
- `PlainDisassembly.lines`: the listing
- `Disassembly.plain`: the plain form of a disassembly

## Main statements

- `PlainDisassembly.ofProgram_eq`: taking a program apart never leaves its domain
- `PlainDisassembly.lines_plain`: the listing of the plain form is the listing
-/

namespace ChipEight

open Guarded

/-- A word of a program with its address, its text and its instruction. -/
structure PlainEntry where
  address : Word
  text : String
  instruction? : Option PlainInstruction
  deriving DecidableEq, Repr

/-- The words of a program and the places they refer to. -/
structure PlainDisassembly where
  entries : List PlainEntry
  labels : Std.ExtTreeSet Word

namespace PlainEntry

/-- The entry of the word at index `i` of a program. -/
def ofWord (program : Array UInt8) (i : Nat) : Guarded PlainEntry := do
  let bytes := (program.toList.drop (2 * i)).take 2
  let offset ← size (i * 2)
  let address ← size (AddressSpace.programStart + offset)
  let high ← item bytes 0
  let low ← item bytes 1
  let instruction? ← PlainInstruction.decode (.ofBytes high low)
  let text :=
    match instruction? with
    | some i => i.text
    | none => ".byte " ++ Hex.padded 2 high.toNat ++ " " ++ Hex.padded 2 low.toNat
  return { address := .ofNat address, text := text, instruction? := instruction? }

def isReturn (e : PlainEntry) : Bool := e.instruction?.any fun i => i.operation == .ret

def label? (e : PlainEntry) : Option Word := e.instruction?.bind PlainInstruction.label?

/-- Lists one more entry. -/
def addTo (labels : Std.ExtTreeSet Word) (page : Disassembly.Page) (e : PlainEntry) :
    Disassembly.Page :=
  let opens := labels.contains e.address
  let indented := page.indented || opens
  let lines :=
    if opens then page.lines.push (Instruction.labelName e.address ++ ":") else page.lines
  { indented := indented && !e.isReturn
    lines := lines.push (if indented then "\t" ++ e.text else e.text) }

end PlainEntry

namespace PlainDisassembly

def ofProgram (program : Array UInt8) : Guarded PlainDisassembly := do
  let entries ← (List.range (program.size / 2)).mapM (PlainEntry.ofWord program)
  return { entries := entries, labels := .ofList (entries.filterMap PlainEntry.label?) }

def lines (d : PlainDisassembly) : List String :=
  (d.entries.foldl (PlainEntry.addTo d.labels) {}).lines.toList

end PlainDisassembly

/-! ## The plain form -/

def Entry.plain (e : Entry) : PlainEntry where
  address := e.address
  text := e.text
  instruction? := e.instruction?.map Instruction.plain

def Disassembly.plain (d : Disassembly) : PlainDisassembly where
  entries := d.entries.map Entry.plain
  labels := d.labels

namespace PlainEntry

theorem label?_plain (e : Entry) : e.plain.label? = e.label? := by
  simp only [label?, Entry.label?, Entry.plain]
  cases e.instruction? with
  | none => rfl
  | some i => exact PlainInstruction.label?_plain i

theorem isReturn_plain (e : Entry) : e.plain.isReturn = e.isReturn := by
  simp only [isReturn, Entry.isReturn, Entry.plain, Option.any_map]
  rfl

theorem addTo_plain (labels : Std.ExtTreeSet Word) (page : Disassembly.Page) (e : Entry) :
    addTo labels page e.plain = page.add labels e := by
  rw [addTo, isReturn_plain]
  rfl

end PlainEntry

/-- The most bytes that a sequence of them can have in the memory of a host. -/
abbrev longestProgram : Nat := 0x7FFFFFFFFFFFFFFF

namespace PlainDisassembly

theorem lines_plain (d : Disassembly) : d.plain.lines = d.lines := by
  have haddTo : (fun page e => PlainEntry.addTo d.labels page e.plain)
      = Disassembly.Page.add d.labels :=
    funext fun page => funext fun e => PlainEntry.addTo_plain d.labels page e
  rw [lines, Disassembly.plain, List.foldl_map, haddTo]
  rfl

theorem ofWord_eq {program : Array UInt8} (hsize : program.size ≤ longestProgram)
    (i : Fin (program.size / 2)) :
    PlainEntry.ofWord program i.val = .ok (Disassembly.entry program i).plain := by
  have hi := i.isLt
  have hsmall : program.size ≤ 0x7FFFFFFFFFFFFFFF := hsize
  -- Both bytes are there, since there are half as many words as bytes at most.
  have hbyte (k : Nat) (hk : k < 2) : item ((program.toList.drop (2 * i.val)).take 2) k
      = .ok program[2 * i.val + k] := by
    apply item_eq
    rw [List.getElem?_take_of_lt hk, List.getElem?_drop, Array.getElem?_toList,
      Array.getElem?_eq_getElem]
  have hoffset : size (i.val * 2) = .ok (i.val * 2) := size_of_lt (by omega)
  have haddress : size (AddressSpace.programStart + i.val * 2) = .ok (0x200 + i.val * 2) :=
    show size (0x200 + i.val * 2) = _ from size_of_lt (by omega)
  have hdecode : PlainInstruction.decode (.ofBytes program[2 * i.val + 0] program[2 * i.val + 1])
      = .ok ((Disassembly.entry program i).instruction?.map Instruction.plain) :=
    PlainInstruction.decode_eq (Disassembly.entry program i).word
  have hhigh : (Disassembly.entry program i).word.highByte = program[2 * i.val] :=
    Word.highByte_ofBytes _ _
  have hlow : (Disassembly.entry program i).word.lowByte = program[2 * i.val + 1] :=
    Word.lowByte_ofBytes _ _
  have hwhere : (Disassembly.entry program i).address = .ofNat (0x200 + i.val * 2) := by
    rw [Nat.mul_comm]
    rfl
  simp only [PlainEntry.ofWord, hoffset, haddress, ok_bind, hbyte 0 (by decide),
    hbyte 1 (by decide), hdecode, Entry.plain, Entry.text, hhigh, hlow, hwhere]
  cases (Disassembly.entry program i).instruction? with
  | none => rfl
  | some found => simp [PlainInstruction.text_plain]

theorem ofProgram_eq {program : Array UInt8} (hsize : program.size ≤ longestProgram) :
    ofProgram program = .ok (Disassembly.ofProgram program).plain := by
  have hrange : List.range (program.size / 2) = (List.finRange (program.size / 2)).map Fin.val :=
    List.ext_getElem (by simp) (by simp)
  have hwords : PlainEntry.ofWord program ∘ Fin.val
      = fun i => (pure (Disassembly.entry program i).plain : Guarded PlainEntry) :=
    funext (ofWord_eq hsize)
  have hentries :
      (List.finRange (program.size / 2)).map (fun i => (Disassembly.entry program i).plain)
        = (Disassembly.ofProgram program).plain.entries := by
    rw [Disassembly.plain, Disassembly.ofProgram, List.map_ofFn, List.finRange, List.map_ofFn]
    rfl
  rw [ofProgram, hrange, List.mapM_map, hwords, List.mapM_pure, hentries]
  have hlabels : PlainEntry.label? ∘ Entry.plain = Entry.label? := funext PlainEntry.label?_plain
  rw [pure_eq_ok, ok_bind, Disassembly.plain, List.filterMap_map, hlabels]
  rfl

end PlainDisassembly

end ChipEight
