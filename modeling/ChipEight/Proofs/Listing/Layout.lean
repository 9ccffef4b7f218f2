import Mathlib.Data.List.FinRange
import ChipEight.Proofs.Listing.Assembly

/-!
# How a listing is laid out

A listing is made in one pass that carries along whether a block is open. What an entry looks like
can be told without that pass: it has the line of a label if its address is one, and it is indented
if a label stands at an entry up to it with no return in between. The pass is tied to this by an
induction on how many entries are listed.

The lines of labels are told from those of words by reading them, since only the latter stand for a
word. So the lines of labels, without all the others, are those of the entries that stand at a label,
in their order. Addresses repeat only where they wrap, and in a program that does not reach round the
whole of the address space no line of a label occurs twice.

## Main definitions

- `Disassembly.Indented`: an entry belongs to the block of a label
- `Disassembly.linesOf`: the lines of one entry
- `Disassembly.skips`: a line stands for no word of the program

## Main statements

- `Disassembly.page_take`: the page after some of the entries
- `Disassembly.filter_lines`: the lines of labels
- `Disassembly.listing_structure`: entries, labels and lines of any program
-/

namespace ChipEight

/-- There is one word only that is a return. -/
theorem Entry.isReturn_eq (e : Entry) : e.isReturn = (e.word == 0x00EE) := by
  rw [Bool.eq_iff_iff, beq_iff_eq, isReturn, Option.any_eq_true]
  constructor
  · rintro ⟨i, hi, hret⟩
    rw [← Instruction.encode_of_decode hi, Instruction.encode_ret (beq_iff_eq.mp hret)]
  · intro hword
    refine ⟨{ operation := .ret }, ?_, rfl⟩
    rw [instruction?, hword]
    decide

namespace Disassembly

variable {d : Disassembly} {program : Array UInt8} {e : Entry} {j : Nat}

/-! ## Blocks -/

/-- Whether a label stands at an entry. -/
def opensAt (d : Disassembly) (j : Nat) : Bool :=
  d.entries[j]?.any fun e => d.labels.contains e.address

/-- Whether an entry is a return. -/
def returnsAt (d : Disassembly) (j : Nat) : Bool := d.entries[j]?.any fun e => e.word == 0x00EE

/-- An entry belongs to the block of a label, which stands at it or before it, if there is no return
from the label on. -/
def Indented (d : Disassembly) (j : Nat) : Prop :=
  ∃ i ≤ j, d.opensAt i = true ∧ ∀ k < j, i ≤ k → d.returnsAt k = false

/-- A block that was opened before an entry goes on there. -/
def GoesOn (d : Disassembly) (j : Nat) : Prop :=
  ∃ i < j, d.opensAt i = true ∧ ∀ k < j, i ≤ k → d.returnsAt k = false

instance (d : Disassembly) (j : Nat) : Decidable (d.Indented j) :=
  inferInstanceAs (Decidable (∃ i ≤ j, d.opensAt i = true ∧ ∀ k < j, i ≤ k → d.returnsAt k = false))

theorem not_goesOn_zero (d : Disassembly) : ¬d.GoesOn 0 := by
  rintro ⟨i, hi, -⟩
  exact Nat.not_lt_zero i hi

theorem indented_iff : d.Indented j ↔ d.GoesOn j ∨ d.opensAt j = true := by
  constructor
  · rintro ⟨i, hi, hopens, hkept⟩
    rcases Nat.lt_or_eq_of_le hi with hlt | rfl
    · exact .inl ⟨i, hlt, hopens, hkept⟩
    · exact .inr hopens
  · rintro (⟨i, hi, hopens, hkept⟩ | hopens)
    · exact ⟨i, Nat.le_of_lt hi, hopens, hkept⟩
    · exact ⟨j, Nat.le_refl j, hopens, fun k hk hjk => absurd hk (Nat.not_lt_of_le hjk)⟩

theorem goesOn_succ_iff :
    d.GoesOn (j + 1) ↔ d.Indented j ∧ d.returnsAt j = false := by
  -- The entries from the label up to the next one are those up to this one, and this one itself.
  constructor
  · rintro ⟨i, hi, hopens, hkept⟩
    have hij : i ≤ j := Nat.le_of_lt_succ hi
    exact ⟨⟨i, hij, hopens, fun k hk => hkept k (Nat.lt_succ_of_lt hk)⟩,
      hkept j (Nat.lt_succ_self j) hij⟩
  · rintro ⟨⟨i, hi, hopens, hkept⟩, hlast⟩
    refine ⟨i, Nat.lt_succ_of_le hi, hopens, fun k hk hik => ?_⟩
    rcases Nat.lt_or_eq_of_le (Nat.le_of_lt_succ hk) with hlt | rfl
    · exact hkept k hlt hik
    · exact hlast

/-! ## The lines of one entry -/

/-- The lines of the entry at index `j`. -/
def linesOf (d : Disassembly) (j : Nat) (e : Entry) : List String :=
  (if e.address ∈ d.labels then [Instruction.labelName e.address ++ ":"] else []) ++
    [if d.Indented j then "\t" ++ e.text else e.text]

/-- To a page that knows whether a block goes on, an entry adds its lines, and the page knows it of
the next entry. -/
theorem page_add {page : Page} (he : d.entries[j]? = some e)
    (hpage : page.indented = true ↔ d.GoesOn j) :
    ((page.add d.labels e).indented = true ↔ d.GoesOn (j + 1)) ∧
      (page.add d.labels e).lines.toList = page.lines.toList ++ d.linesOf j e := by
  have hopens : d.opensAt j = d.labels.contains e.address := by rw [opensAt, he, Option.any_some]
  have hreturns : d.returnsAt j = e.isReturn := by
    rw [returnsAt, he, Option.any_some, e.isReturn_eq]
  have hindented : (page.indented || d.labels.contains e.address) = true ↔ d.Indented j := by
    rw [Bool.or_eq_true, hpage, ← hopens, indented_iff]
  constructor
  · rw [goesOn_succ_iff, ← hindented, hreturns, Page.add, Bool.and_eq_true, Bool.not_eq_true']
  · simp only [Page.add, hindented, linesOf, Std.ExtTreeSet.contains_iff_mem]
    split
    · simp
    · simp

/-- After some of the entries the page has their lines, and it knows whether a block goes on. -/
theorem page_take (d : Disassembly) {k : Nat} (hk : k ≤ d.entries.length) :
    (((d.entries.take k).foldl (Page.add d.labels) {}).indented = true ↔ d.GoesOn k) ∧
      ((d.entries.take k).foldl (Page.add d.labels) {}).lines.toList
        = ((d.entries.take k).mapIdx d.linesOf).flatten := by
  -- By induction on how many entries are listed: what a page knows is what the next entry needs.
  induction k with
  | zero => simp [not_goesOn_zero]
  | succ k ih =>
    obtain ⟨hpage, hlines⟩ := ih (Nat.le_of_succ_le hk)
    obtain ⟨e, he⟩ : ∃ e, d.entries[k]? = some e := ⟨_, List.getElem?_eq_getElem hk⟩
    obtain ⟨hnext, hadded⟩ := page_add he hpage
    have htake : d.entries.take (k + 1) = d.entries.take k ++ [e] := by
      rw [List.take_add_one, he, Option.toList_some]
    have hlength : (d.entries.take k).length = k := List.length_take_of_le (Nat.le_of_succ_le hk)
    rw [htake, List.foldl_append, List.foldl_cons, List.foldl_nil, List.mapIdx_concat, hlength,
      List.flatten_concat, ← hlines]
    exact ⟨hnext, hadded⟩

theorem lines_eq (d : Disassembly) : d.lines = (d.entries.mapIdx d.linesOf).flatten := by
  have hall := (d.page_take (Nat.le_refl _)).2
  rwa [List.take_length] at hall

/-! ## The lines of labels -/

theorem labelLine_inj {a b : Word} :
    Instruction.labelName a ++ ":" = Instruction.labelName b ++ ":" ↔ a = b := by
  refine ⟨fun h => ?_, fun h => by rw [h]⟩
  have hname : (Instruction.labelName a).toList = (Instruction.labelName b).toList := by
    have hline := congrArg String.toList h
    rwa [String.toList_append, String.toList_append, List.append_cancel_right_eq] at hline
  have hread := Assembler.immediate?_labelName a
  rw [hname, Assembler.immediate?_labelName] at hread
  exact (Option.some.inj hread).symm

/-- Whether a line stands for no word of the program. -/
def skips (line : String) : Bool := (Assembler.line? line.toList).isNone

theorem skips_labelLine (a : Word) : skips (Instruction.labelName a ++ ":") = true := by
  rw [skips, Assembler.line?_label, Option.isNone_none]

theorem not_skips_text (e : Entry) : skips e.text = false := by
  rw [skips, Assembler.line?_text, Option.isNone_some]

theorem not_skips_indented (e : Entry) : skips ("\t" ++ e.text) = false := by
  have htab : ("\t" ++ e.text).toList = '\t' :: e.text.toList := String.toList_append
  rw [skips, htab, Assembler.line?_indented, Option.isNone_some]

/-- The index of an entry decides about the tab only, and the text stands for a word with or without
it. -/
theorem filter_linesOf (d : Disassembly) (j : Nat) (e : Entry) :
    (d.linesOf j e).filter skips =
      if e.address ∈ d.labels then [Instruction.labelName e.address ++ ":"] else [] := by
  have htext : ([if d.Indented j then "\t" ++ e.text else e.text] : List String).filter skips
      = [] := by
    split
    · simp [not_skips_indented]
    · simp [not_skips_text]
  rw [linesOf, List.filter_append, htext, List.append_nil]
  split
  · simp [skips_labelLine]
  · rfl

/-- The lines that stand for no word are those of labels, one for each entry that stands at one. -/
theorem filter_lines (d : Disassembly) :
    d.lines.filter skips =
      ((d.entries.map Entry.address).filter (· ∈ d.labels)).map fun a =>
        Instruction.labelName a ++ ":" := by
  have hindexed : (d.entries.mapIdx d.linesOf).map (List.filter skips) =
      d.entries.map fun e =>
        if e.address ∈ d.labels then [Instruction.labelName e.address ++ ":"] else [] := by
    apply List.ext_getElem?
    intro j
    simp only [List.getElem?_map, List.getElem?_mapIdx, Option.map_map, Function.comp_def,
      filter_linesOf]
  rw [lines_eq, List.filter_flatten, hindexed]
  -- No index is left, so the induction is on the entries alone.
  induction d.entries with
  | nil => rfl
  | cons e entries ih =>
    rw [List.map_cons, List.flatten_cons, ih, List.map_cons, List.filter_cons]
    simp only [decide_eq_true_eq]
    split
    · rfl
    · rfl

theorem labelLine_mem_lines {a : Word} :
    Instruction.labelName a ++ ":" ∈ d.lines ↔ a ∈ d.labels ∧ ∃ e ∈ d.entries, e.address = a := by
  calc
    Instruction.labelName a ++ ":" ∈ d.lines
        ↔ Instruction.labelName a ++ ":" ∈ d.lines.filter skips := by
      rw [List.mem_filter, and_iff_left (skips_labelLine a)]
    _ ↔ a ∈ d.labels ∧ ∃ e ∈ d.entries, e.address = a := by
      rw [filter_lines]
      simp only [List.mem_map, List.mem_filter, labelLine_inj, exists_eq_right, decide_eq_true_eq]
      exact and_comm

/-- If addresses do not repeat, no line of a label does. -/
theorem count_labelLine_le (hd : (d.entries.map Entry.address).Nodup) (a : Word) :
    d.lines.count (Instruction.labelName a ++ ":") ≤ 1 := by
  rw [← List.count_filter (skips_labelLine a), filter_lines]
  apply List.nodup_iff_count_le_one.mp
  exact (hd.filter _).map fun _ _ h => labelLine_inj.mp h

/-! ## The entries of a program -/

theorem toNat_address (he : (ofProgram program).entries[j]? = some e) :
    e.address.toNat = (0x200 + 2 * j) % 65536 := by
  obtain ⟨hj, rfl⟩ := getElem?_entries.mp he
  exact UInt16.toNat_ofNat'

theorem bytes_of_entry (he : (ofProgram program).entries[j]? = some e) :
    program[2 * j]? = some e.word.highByte ∧ program[2 * j + 1]? = some e.word.lowByte := by
  obtain ⟨hj, rfl⟩ := getElem?_entries.mp he
  have hbytes : 2 * j + 1 < program.size := by omega
  rw [entry, Word.highByte_ofBytes, Word.lowByte_ofBytes]
  exact ⟨Array.getElem?_eq_getElem (Nat.lt_of_succ_lt hbytes), Array.getElem?_eq_getElem hbytes⟩

/-- Addresses repeat only in a program that reaches round the whole address space. -/
theorem nodup_addresses (hsize : program.size ≤ 65536) :
    ((ofProgram program).entries.map Entry.address).Nodup := by
  rw [ofProgram, List.map_ofFn, List.nodup_ofFn]
  intro i k hsame
  -- There are no more than half as many entries as addresses, and they are two addresses apart.
  have hi := i.isLt
  have hk := k.isLt
  have hindex := congrArg UInt16.toNat hsame
  simp only [Function.comp_apply, entry, UInt16.toNat_ofNat', AddressSpace.programStart] at hindex
  exact Fin.ext (by omega)

theorem pairwise_labels (d : Disassembly) : d.labels.toList.Pairwise (· < ·) :=
  d.labels.ordered_toList.imp fun h => Std.compare_eq_lt.mp h

/-- The labels are what the words of four families say besides their family. -/
theorem mem_labels_iff {a : Word} :
    a ∈ (ofProgram program).labels ↔
      ∃ e ∈ (ofProgram program).entries,
        e.word.family ∈ [0x1, 0x2, 0xA, 0xB] ∧ e.word.address = a := by
  simp only [mem_labels, Entry.label?, Entry.instruction?, Instruction.label?_decode_eq_some_iff]

/-- The labels are the places that jumps, calls and index loads refer to. -/
theorem mem_labels_iff_refers {a : Word} :
    a ∈ (ofProgram program).labels ↔
      ∃ e ∈ (ofProgram program).entries, ∃ i, e.instruction? = some i ∧
        i.operation ∈ [.jump, .call, .loadIndex, .jumpOffset] ∧ i.address = a := by
  simp only [mem_labels, Entry.label?, Option.bind_eq_some_iff, Instruction.label?_eq_some_iff]

/-! ## Listings of programs -/

/-- **The layout of a listing.** A program of any size has an entry for each pair of its bytes, at
addresses that go up by two from 0x200 and may wrap. The labels, in ascending order, are the low
twelve bits of the words of four families. In the listing the entries follow each other: each has the
line of a label before it if its address is one, and its text is indented if a label stands at an
entry up to it with no return in between. So the line of a label occurs if a jump, a call or an index
load refers to its address and this is the address of an entry, and in a program of no more than
65536 bytes it occurs only once. -/
theorem listing_structure (program : Array UInt8) :
    (ofProgram program).entries.length = program.size / 2 ∧
    (∀ j e, (ofProgram program).entries[j]? = some e →
      e.address.toNat = (0x200 + 2 * j) % 65536 ∧
      program[2 * j]? = some e.word.highByte ∧ program[2 * j + 1]? = some e.word.lowByte) ∧
    (ofProgram program).labels.toList.Pairwise (· < ·) ∧
    (∀ a, a ∈ (ofProgram program).labels.toList ↔
      ∃ e ∈ (ofProgram program).entries,
        e.word.family ∈ [0x1, 0x2, 0xA, 0xB] ∧ e.word.address = a) ∧
    (ofProgram program).lines =
      ((ofProgram program).entries.mapIdx (ofProgram program).linesOf).flatten ∧
    ∀ a,
      (Instruction.labelName a ++ ":" ∈ (ofProgram program).lines ↔
        (∃ e ∈ (ofProgram program).entries, ∃ i, e.instruction? = some i ∧
          i.operation ∈ [.jump, .call, .loadIndex, .jumpOffset] ∧ i.address = a) ∧
        ∃ e ∈ (ofProgram program).entries, e.address = a) ∧
      (program.size ≤ 65536 →
        (ofProgram program).lines.count (Instruction.labelName a ++ ":") ≤ 1) := by
  refine ⟨length_entries program, fun j e he => ⟨toNat_address he, bytes_of_entry he⟩,
    pairwise_labels _, fun a => ?_, lines_eq _, fun a => ⟨?_, fun hsize => ?_⟩⟩
  · rw [Std.ExtTreeSet.mem_toList, mem_labels_iff]
  · rw [labelLine_mem_lines, mem_labels_iff_refers]
  · exact count_labelLine_le (nodup_addresses hsize) a

/-- Two blocks behind a jump. The jump refers to a place between two words. -/
def twoBlocks : Array UInt8 := #[0x12, 0x03, 0xA2, 0x06, 0x00, 0xEE, 0x22, 0x02]

example :
    (ofProgram twoBlocks).lines =
      ["JMP off_0203", "off_0202:", "\tLII off_0206", "\tRET", "off_0206:", "\tCALL off_0202"] := by
  decide

/-- The second block has one line with its name, and what the jump refers to has none. -/
theorem listing_structure_twoBlocks :
    twoBlocks.size ≤ 65536 ∧ (ofProgram twoBlocks).lines.count "off_0206:" = 1 ∧
      "off_0203:" ∉ (ofProgram twoBlocks).lines := by
  have hsize : twoBlocks.size ≤ 65536 := by decide
  obtain ⟨-, -, -, -, -, hlabels⟩ := listing_structure twoBlocks
  obtain ⟨hmem, hcount⟩ := hlabels 0x206
  have hline : "off_0206:" ∈ (ofProgram twoBlocks).lines := by
    refine hmem.mpr ⟨⟨⟨0x202, 0xA206⟩, by decide, ?_⟩, ⟨⟨0x206, 0x2202⟩, by decide, rfl⟩⟩
    exact ⟨{ immediate := 0x206, operation := .loadIndex }, by decide, by decide, by decide⟩
  refine ⟨hsize, Nat.le_antisymm (hcount hsize) (List.count_pos_iff.mpr hline), fun hodd => ?_⟩
  obtain ⟨-, e, he, haddress⟩ := (hlabels 0x203).1.mp hodd
  have hnone : ∀ e ∈ (ofProgram twoBlocks).entries, e.address ≠ 0x203 := by decide
  exact hnone e he haddress

end Disassembly

end ChipEight
