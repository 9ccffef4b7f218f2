import Mathlib.Data.List.OfFn
import ChipEight.Proofs.Listing.Assembly

/-!
# Listings lose nothing

What is printed of a program is assembled to this program again, less an odd byte at its end. So a
listing is ambiguous nowhere: neither in the text of an instruction or of data, nor in the lines of
labels, nor in how lines are indented. Addresses do not matter to this, and so neither does the size
of the program.

Which labels there are and which lines are indented decides how a listing looks, but not what is
read from it. For reading it is enough that the lines are those of the entries in their order, with
lines of labels in between.

## Main definitions

- `Lists`: lines that list some entries
- `Disassembly.printed`: a listing as one text

## Main statements

- `Disassembly.lists_lines`: the lines of a listing list its entries
- `Lists.words`: lines are read back as the words of the entries that they list
- `Assembler.assemble_printed`: a listing is assembled to its program
-/

namespace ChipEight

/-! ## The lines of a listing -/

/-- Lines that list some entries: each has a line of its own, with or without a tab in front of it,
and there may be lines of labels besides. -/
inductive Lists : (entries : List Entry) → (lines : List String) → Prop where
  | nil : Lists [] []
  | plain (e : Entry) {entries : List Entry} {lines : List String} (h : Lists entries lines) :
      Lists (e :: entries) (e.text :: lines)
  | indented (e : Entry) {entries : List Entry} {lines : List String} (h : Lists entries lines) :
      Lists (e :: entries) (("\t" ++ e.text) :: lines)
  | label (address : Word) {entries : List Entry} {lines : List String} (h : Lists entries lines) :
      Lists entries ((Instruction.labelName address ++ ":") :: lines)

namespace Disassembly

/-- What an entry adds to a page: its own line, and the line of its label if it has one. -/
theorem Page.lines_add (labels : Std.ExtTreeSet Word) (page : Page) (e : Entry) :
    ∃ own, (page.add labels e).lines.toList = page.lines.toList ++ own ∧
      ∀ entries lines, Lists entries lines → Lists (e :: entries) (own ++ lines) := by
  have htext (indented : Bool) {entries : List Entry} {lines : List String}
      (h : Lists entries lines) :
      Lists (e :: entries) ((if indented then "\t" ++ e.text else e.text) :: lines) := by
    cases indented with
    | true => exact .indented e h
    | false => exact .plain e h
  -- Whether a label is there decides how many lines are added, and with a label there is a tab too.
  rw [add]
  cases labels.contains e.address with
  | true =>
    refine ⟨[Instruction.labelName e.address ++ ":", "\t" ++ e.text], by simp, fun _ _ h => ?_⟩
    exact .label e.address (htext true h)
  | false =>
    refine ⟨[if page.indented then "\t" ++ e.text else e.text], by simp, fun _ _ h => ?_⟩
    exact htext page.indented h

/-- A page goes on with lines that list the entries that are added to it. -/
theorem Page.lists_foldl (labels : Std.ExtTreeSet Word) (entries : List Entry) (page : Page) :
    ∃ lines, (entries.foldl (Page.add labels) page).lines.toList = page.lines.toList ++ lines ∧
      Lists entries lines := by
  induction entries generalizing page with
  | nil => exact ⟨[], (List.append_nil _).symm, .nil⟩
  | cons e entries ih =>
    obtain ⟨own, hown, hlists⟩ := page.lines_add labels e
    obtain ⟨lines, hlines, hrest⟩ := ih (page.add labels e)
    refine ⟨own ++ lines, ?_, hlists _ _ hrest⟩
    rw [List.foldl_cons, hlines, hown, List.append_assoc]

theorem lists_lines (d : Disassembly) : Lists d.entries d.lines := by
  obtain ⟨lines, hlines, hlists⟩ := Page.lists_foldl d.labels d.entries {}
  have heq : d.lines = lines := hlines
  rw [heq]
  exact hlists

/-- A listing as one text, in which every line is ended. -/
def printed (d : Disassembly) : String := String.join (d.lines.map (· ++ "\n"))

theorem toList_printed (d : Disassembly) :
    d.printed.toList = d.lines.flatMap fun line => line.toList ++ ['\n'] :=
  toList_join_ended d.lines

end Disassembly

/-! ## Reading the lines -/

/-- A line that is ended is read by itself. -/
theorem Assembler.filterMap_line? {line : List Char} (hline : '\n' ∉ line) (rest : List Char) :
    ((line ++ ['\n'] ++ rest).splitOn '\n').filterMap line? =
      (line? line).toList ++ (rest.splitOn '\n').filterMap line? := by
  have hsplit : (line ++ ['\n'] ++ rest).splitOn '\n' = line :: rest.splitOn '\n' := by
    rw [List.append_assoc]
    exact List.splitOn_append_cons_self_of_not_mem hline rest
  rw [hsplit]
  cases hword : line? line with
  | none => rw [List.filterMap_cons_none hword]; rfl
  | some w => rw [List.filterMap_cons_some hword]; rfl

open Assembler in
/-- Lines are read back as the words of the entries that they list. -/
theorem Lists.words {entries : List Entry} {lines : List String} (h : Lists entries lines) :
    ((lines.flatMap fun line => line.toList ++ ['\n']).splitOn '\n').filterMap line? =
      entries.map Entry.word := by
  -- Each line is read by itself, so the induction is on what the lines list.
  induction h with
  | nil => rw [List.flatMap_nil, List.splitOn_nil, List.filterMap_cons_none line?_nil]; rfl
  | plain e _ ih =>
    rw [List.flatMap_cons, filterMap_line? e.lineEnd_not_mem_text, line?_text, ih]
    rfl
  | indented e _ ih =>
    have htab : ("\t" ++ e.text).toList = '\t' :: e.text.toList := String.toList_append
    have hend : '\n' ∉ '\t' :: e.text.toList :=
      List.not_mem_cons_of_ne_of_not_mem (by decide) e.lineEnd_not_mem_text
    rw [List.flatMap_cons, htab, filterMap_line? hend, line?_indented, ih]
    rfl
  | label address _ ih =>
    have hend : '\n' ∉ (Instruction.labelName address ++ ":").toList :=
      fun hend => (isPiece_labelLine address _ hend).2.2 rfl
    rw [List.flatMap_cons, filterMap_line? hend, line?_label, ih]
    rfl

/-! ## Bytes -/

/-- The words of a program give its bytes in pairs. -/
theorem Disassembly.flatMap_words (program : Array UInt8) :
    ((ofProgram program).entries.map Entry.word).flatMap (fun w => [w.highByte, w.lowByte])
      = program.toList.take (2 * (program.size / 2)) := by
  have hle : 2 * (program.size / 2) ≤ program.size := Nat.mul_div_le _ _
  have hpairs : (fun e : Entry => [e.word.highByte, e.word.lowByte]) ∘ entry program
      = fun i => [program[2 * i.val], program[2 * i.val + 1]] := by
    funext i
    rw [Function.comp_apply, entry, Word.highByte_ofBytes, Word.lowByte_ofBytes]
  have hbytes : program.toList.take (2 * (program.size / 2))
      = List.ofFn fun k : Fin (2 * (program.size / 2)) => program[k.castLE hle] := by
    apply List.ext_getElem
    · simp [Nat.min_eq_left hle]
    · intros
      simp
  -- The bytes are cut into pairs, and each pair is that of a word.
  rw [hbytes, List.ofFn_mul', List.flatMap_map, List.flatMap_def]
  simp [ofProgram, hpairs]

namespace Assembler

/-- **A listing is assembled to its program.** Only an odd byte at the end of the program is lost,
so two programs with the same listing are the same but for that. -/
theorem assemble_printed (program : Array UInt8) :
    assemble (Disassembly.ofProgram program).printed
        = program.take (program.size - program.size % 2) ∧
      ∀ other : Array UInt8,
        (Disassembly.ofProgram other).printed = (Disassembly.ofProgram program).printed →
        other.take (other.size - other.size % 2)
          = program.take (program.size - program.size % 2) := by
  have hread (program : Array UInt8) : assemble (Disassembly.ofProgram program).printed
      = program.take (program.size - program.size % 2) := by
    have heven : program.size - program.size % 2 = 2 * (program.size / 2) := by omega
    rw [assemble, Disassembly.toList_printed, (Disassembly.lists_lines _).words, heven,
      Disassembly.flatMap_words]
    apply Array.toList_inj.mp
    simp
  refine ⟨hread program, fun other hsame => ?_⟩
  rw [← hread other, hsame, hread program]

example : assemble "off_0200:\n\tDRW V0 V1 0x05\n\t.byte 50 01\n" = #[0xD0, 0x15, 0x50, 0x01] := by
  decide

end Assembler

end ChipEight
