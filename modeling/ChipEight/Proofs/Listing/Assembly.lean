import ChipEight.Listing
import ChipEight.Proofs.Encoding
import ChipEight.Proofs.Numeral

/-!
# Reading the lines of a listing

An assembler for the text of listings. It takes each line by itself. A tab in front is left out,
and what remains is split at its blanks. If `.byte` comes first, two bytes of data follow, and
otherwise a mnemonic with its operands. Lines that stand for no word of the program are skipped, as
the names of labels are.

The text of an entry is its words with a blank between them, none of which has a blank or a line
end in it. What an operand means is settled by its form, together with the layout of the mnemonic,
so the words of an entry are read back one after the other.

## Main definitions

- `Assembler.word?`, `Assembler.line?`: the word that is written as some words of text, or as a line
- `Assembler.assemble`: the program of a listing
- `Entry.words`: the words of the text of an entry

## Main statements

- `Assembler.line?_text`: the text of an entry is read back as its word
- `Assembler.line?_label`: the line of a label stands for no word
-/

namespace ChipEight

/-! ## The assembler -/

namespace Assembler

/-- A register, such as `V3`. -/
def register? : List Char → Option Nibble
  | ['V', c] => (Numeral.digit? 16 c).map (Fin.ofNat 16)
  | _ => none

/-- An immediate, such as `0x05`, or the address of a label, such as `off_0204`. -/
def immediate? : List Char → Option Word
  | '0' :: 'x' :: cs => (Numeral.natural? 16 0 cs).map UInt16.ofNat
  | 'o' :: 'f' :: 'f' :: '_' :: cs => (Numeral.natural? 16 0 cs).map UInt16.ofNat
  | _ => none

/-- The operands behind a mnemonic. -/
def operands? : Layout → List (List Char) → Option Operands
  | .fixed _ _ _, [] => some {}
  | .address, [target] => do
    return { immediate := ← immediate? target }
  | .registerByte, [x, byte] => do
    return { x := ← register? x, immediate := ← immediate? byte }
  | .registers _, [x, y] => do
    return { x := ← register? x, y := ← register? y }
  | .registersDigit, [x, y, digit] => do
    return { x := ← register? x, y := ← register? y, immediate := ← immediate? digit }
  | .register _ _, [x] => do
    return { x := ← register? x }
  | _, _ => none

/-- The operation with a mnemonic. -/
def operation? (name : List Char) : Option Operation :=
  instructionSet.find? fun op => op.mnemonic.toList == name

/-- The two bytes of data behind `.byte`. -/
def data? : List (List Char) → Option Word
  | [high, low] => do
    let high ← Numeral.natural? 16 0 high
    let low ← Numeral.natural? 16 0 low
    return .ofBytes (UInt8.ofNat high) (UInt8.ofNat low)
  | _ => none

/-- The word of the program that some words of text stand for. -/
def word? : List (List Char) → Option Word
  | [] => none
  | name :: rest =>
    if name = ".byte".toList then data? rest
    else do
      let op ← operation? name
      let operands ← operands? op.layout rest
      return Instruction.encode { toOperands := operands, operation := op }

/-- A line without the tab in front of it. -/
def unindented : List Char → List Char
  | '\t' :: cs => cs
  | cs => cs

/-- The word of the program that a line stands for. -/
def line? (line : List Char) : Option Word := word? ((unindented line).splitOn ' ')

/-- The program of a listing. -/
def assemble (listing : String) : Array UInt8 :=
  let words := (listing.toList.splitOn '\n').filterMap line?
  (words.flatMap fun w => [w.highByte, w.lowByte]).toArray

end Assembler

/-! ## The words of a text -/

namespace Instruction

/-- The operands as they stand in a listing. -/
def operandWords (i : Instruction) : List String :=
  match i.operation.layout with
  | .fixed _ _ _ => []
  | .address =>
    match i.label? with
    | some target => [labelName target]
    | none => ["0x" ++ Hex.padded 4 i.immediate.toNat]
  | .registerByte => [registerName i.x, "0x" ++ Hex.padded 2 i.immediate.toNat]
  | .registers _ => [registerName i.x, registerName i.y]
  | .registersDigit =>
    [registerName i.x, registerName i.y, "0x" ++ Hex.padded 2 i.immediate.toNat]
  | .register _ _ => [registerName i.x]

theorem text_eq (i : Instruction) :
    i.text = " ".intercalate (i.operation.mnemonic :: i.operandWords) := by
  -- Character by character, since a blank and the form of an operand share one literal in the text.
  apply String.toList_inj.mp
  rw [text, operandsText, operandWords]
  cases i.operation.layout with
  | address =>
    cases i.label? with
    | some target => simp
    | none => simp
  | _ => simp

end Instruction

/-- The words of the text of an entry. -/
def Entry.words (e : Entry) : List String :=
  match e.instruction? with
  | some i => i.operation.mnemonic :: i.operandWords
  | none => [".byte", Hex.padded 2 e.word.highByte.toNat, Hex.padded 2 e.word.lowByte.toNat]

theorem Entry.text_eq (e : Entry) : e.text = " ".intercalate e.words := by
  rw [text, words]
  cases e.instruction? with
  | some i => exact i.text_eq
  | none =>
    apply String.toList_inj.mp
    simp

/-! ## Pieces

Blanks, tabs and line ends stand between words only. -/

/-- A text that has no blanks, tabs or line ends in it. -/
def IsPiece (text : String) : Prop := ∀ c ∈ text.toList, c ≠ ' ' ∧ c ≠ '\t' ∧ c ≠ '\n'

-- The characters of the text are looked at, and not all that there are.
instance (text : String) : Decidable (IsPiece text) := List.decidableBAll _ text.toList

theorem IsPiece.append {s t : String} (hs : IsPiece s) (ht : IsPiece t) : IsPiece (s ++ t) := by
  intro c hc
  rw [String.toList_append] at hc
  rcases List.mem_append.mp hc with hc | hc
  · exact hs c hc
  · exact ht c hc

theorem isPiece_padded (width n : Nat) : IsPiece (Hex.padded width n) :=
  Hex.forall_mem_padded (by decide) width n

theorem isPiece_immediate (width n : Nat) : IsPiece ("0x" ++ Hex.padded width n) :=
  .append (by decide) (isPiece_padded width n)

theorem isPiece_labelName (address : Word) : IsPiece (Instruction.labelName address) :=
  .append (by decide) (isPiece_padded 4 _)

theorem isPiece_labelLine (address : Word) : IsPiece (Instruction.labelName address ++ ":") :=
  .append (isPiece_labelName address) (by decide)

theorem isPiece_registerName (r : Nibble) : IsPiece (Instruction.registerName r) :=
  .append (by decide) (isPiece_padded 1 _)

theorem isPiece_mnemonic (op : Operation) : IsPiece op.mnemonic := by
  -- The instruction set lists all operations, so it is enough to go through it.
  have hall : ∀ op ∈ instructionSet, IsPiece op.mnemonic := by decide
  exact hall op (mem_instructionSet op)

theorem Instruction.isPiece_operandWords (i : Instruction) : ∀ w ∈ i.operandWords, IsPiece w := by
  rw [operandWords]
  cases i.operation.layout with
  | address =>
    cases i.label? with
    | some target => simp [isPiece_labelName]
    | none => simp [isPiece_immediate]
  | _ => simp [isPiece_registerName, isPiece_immediate]

theorem Entry.isPiece_words (e : Entry) : ∀ w ∈ e.words, IsPiece w := by
  rw [words]
  cases e.instruction? with
  | some i => exact List.forall_mem_cons.mpr ⟨isPiece_mnemonic _, i.isPiece_operandWords⟩
  | none =>
    have hbyte : IsPiece ".byte" := by decide
    simp [hbyte, isPiece_padded]

theorem forall_mem_intercalate {P : Char → Prop} {separator : List Char} {ls : List (List Char)}
    (hseparator : ∀ c ∈ separator, P c) (h : ∀ l ∈ ls, ∀ c ∈ l, P c) :
    ∀ c ∈ separator.intercalate ls, P c := by
  induction ls with
  | nil => simp
  | cons l ls ih =>
    obtain ⟨hl, hls⟩ := List.forall_mem_cons.mp h
    cases ls with
    | nil => simpa using hl
    | cons k ls =>
      rw [List.intercalate_cons_cons, List.forall_mem_append, List.forall_mem_append]
      exact ⟨⟨hl, hseparator⟩, ih hls⟩

/-- Lines as one text, in which every line is ended. -/
theorem toList_join_ended (lines : List String) :
    (String.join (lines.map (· ++ "\n"))).toList = lines.flatMap fun l => l.toList ++ ['\n'] := by
  simp [String.toList_join, List.flatMap_map]

/-- The text of an entry is in one line. -/
theorem Entry.forall_mem_text (e : Entry) : ∀ c ∈ e.text.toList, c ≠ '\t' ∧ c ≠ '\n' := by
  rw [text_eq, String.toList_intercalate]
  apply forall_mem_intercalate
  · intro c hc
    rw [List.mem_singleton.mp hc]
    decide
  · intro l hl
    obtain ⟨w, hw, rfl⟩ := List.mem_map.mp hl
    exact fun c hc => (e.isPiece_words w hw c hc).2

theorem Entry.lineEnd_not_mem_text (e : Entry) : '\n' ∉ e.text.toList :=
  fun hend => (e.forall_mem_text _ hend).2 rfl

/-! ## Reading words -/

namespace Assembler

theorem register?_registerName (r : Nibble) :
    register? (Instruction.registerName r).toList = some r := by
  revert r
  decide

theorem immediate?_padded (width : Nat) (w : Word) :
    immediate? ("0x" ++ Hex.padded width w.toNat).toList = some w := by
  rw [String.toList_append]
  change (Numeral.natural? 16 0 (Hex.padded width w.toNat).toList).map UInt16.ofNat = some w
  rw [Hex.natural?_padded, Option.map_some, UInt16.ofNat_toNat]

theorem immediate?_labelName (w : Word) :
    immediate? (Instruction.labelName w).toList = some w := by
  rw [Instruction.labelName, String.toList_append]
  change (Numeral.natural? 16 0 (Hex.padded 4 w.toNat).toList).map UInt16.ofNat = some w
  rw [Hex.natural?_padded, Option.map_some, UInt16.ofNat_toNat]

theorem operation?_mnemonic (op : Operation) : operation? op.mnemonic.toList = some op := by
  have hall : ∀ op ∈ instructionSet, operation? op.mnemonic.toList = some op := by decide
  exact hall op (mem_instructionSet op)

/-- The operands of an instruction that was decoded are read back. -/
theorem operands?_operandWords {w : Word} {i : Instruction} (h : Instruction.decode w = some i) :
    operands? i.operation.layout (i.operandWords.map String.toList) = some i.toOperands := by
  obtain ⟨-, hoperands⟩ := Instruction.accepts_of_decode h
  rw [Instruction.operandWords, hoperands]
  cases hlayout : i.operation.layout with
  | fixed b c d => rfl
  | address =>
    cases hlabel : i.label? with
    | some target =>
      -- The name of a label shows the address that the immediate was read as.
      have htarget : target = w.address := by
        rw [← (Instruction.label?_eq_some_iff.mp hlabel).2, Operands.address, hoperands, hlayout]
        exact w.address_address
      simp only [operands?, List.map_cons, List.map_nil, immediate?_labelName, htarget]
      rfl
    | none =>
      simp only [operands?, List.map_cons, List.map_nil, immediate?_padded]
      rfl
  | registerByte =>
    simp only [operands?, List.map_cons, List.map_nil, register?_registerName, immediate?_padded]
    rfl
  | registers d =>
    simp only [operands?, List.map_cons, List.map_nil, register?_registerName]
    rfl
  | registersDigit =>
    simp only [operands?, List.map_cons, List.map_nil, register?_registerName, immediate?_padded]
    rfl
  | register c d =>
    simp only [operands?, List.map_cons, List.map_nil, register?_registerName]
    rfl

/-- The words of an entry are read back. -/
theorem word?_words (e : Entry) : word? (e.words.map String.toList) = some e.word := by
  rw [Entry.words]
  cases hi : e.instruction? with
  | some i =>
    -- No mnemonic is taken for the mark of data.
    have hname : i.operation.mnemonic.toList ≠ ".byte".toList := by
      have hall : ∀ op ∈ instructionSet, op.mnemonic.toList ≠ ".byte".toList := by decide
      exact hall _ (mem_instructionSet _)
    simp only [List.map_cons, word?, if_neg hname, operation?_mnemonic, Option.bind_eq_bind,
      Option.bind_some, operands?_operandWords hi]
    exact congrArg some (Instruction.encode_of_decode hi)
  | none =>
    simp only [List.map_cons, List.map_nil, word?, if_pos, data?, Hex.natural?_padded,
      Option.bind_eq_bind, Option.bind_some, UInt8.ofNat_toNat]
    exact congrArg some e.word.ofBytes_bytes

/-! ## Reading lines -/

theorem unindented_eq_self {line : List Char} (h : ∀ c ∈ line, c ≠ '\t') :
    unindented line = line := by
  unfold unindented
  split
  · exact absurd rfl (h '\t' List.mem_cons_self)
  · rfl

/-- The text of an entry stands for its word. -/
theorem line?_text (e : Entry) : line? e.text.toList = some e.word := by
  have hunindented : unindented e.text.toList = e.text.toList :=
    unindented_eq_self fun c hc => (e.forall_mem_text c hc).1
  have hsplit : e.text.toList.splitOn ' ' = e.words.map String.toList := by
    rw [e.text_eq, String.toList_intercalate]
    apply List.splitOn_intercalate
    · intro l hl hblank
      obtain ⟨w, hw, rfl⟩ := List.mem_map.mp hl
      exact (e.isPiece_words w hw ' ' hblank).1 rfl
    · rw [Entry.words]
      cases e.instruction? with
      | some i => nofun
      | none => nofun
  rw [line?, hunindented, hsplit, word?_words]

/-- A tab in front changes nothing about that. -/
theorem line?_indented (e : Entry) : line? ('\t' :: e.text.toList) = some e.word := by
  rw [← line?_text, line?, line?]
  rw [unindented_eq_self fun c hc => (e.forall_mem_text c hc).1]
  rfl

/-- No mnemonic starts with a small letter. -/
theorem operation?_small (name : List Char) : operation? ('o' :: name) = none := by
  have hall : ∀ op ∈ instructionSet, op.mnemonic.toList.head? ≠ some 'o' := by decide
  apply List.find?_eq_none.mpr
  intro op hop hname
  apply hall op hop
  rw [beq_iff_eq.mp hname, List.head?_cons]

/-- The line of a label stands for no word. -/
theorem line?_label (address : Word) :
    line? (Instruction.labelName address ++ ":").toList = none := by
  have hpiece := isPiece_labelLine address
  have hsplit : (Instruction.labelName address ++ ":").toList.splitOn ' '
      = [(Instruction.labelName address ++ ":").toList] :=
    List.splitOn_eq_singleton fun hblank => (hpiece ' ' hblank).1 rfl
  rw [line?, unindented_eq_self fun c hc => (hpiece c hc).2.1, hsplit]
  have hname : (Instruction.labelName address ++ ":").toList
      = 'o' :: ("ff_" ++ Hex.padded 4 address.toNat ++ ":").toList := by
    simp [Instruction.labelName]
  rw [hname, word?, if_neg (by simp), operation?_small]
  rfl

theorem line?_nil : line? [] = none := by
  decide

end Assembler

end ChipEight
