import ChipEight.Instruction

/-!
# Words of instructions

Decoding loses nothing. A pattern accepts a word by its family and its fixed nibbles, and its layout
reads operands from all the other nibbles, so an instruction gives back the word that it was decoded
from. A property of the instruction before a machine is therefore one of the word in memory.

## Main statements

- `Instruction.encode_of_decode`: an instruction encodes to the word that it was decoded from
- `Instruction.decode_jump`: the words that are jumps
- `Instruction.label?_decode_eq_some_iff`: the words that refer to a place in the program
-/

namespace ChipEight

/-! ## Nibbles of a part of a word -/

namespace Word

variable {v w : Word}

theorem second_eq_of_mod (h : v.toNat % 4096 = w.toNat % 4096) : v.second = w.second := by
  apply Fin.ext
  simp only [second]
  omega

theorem third_eq_of_mod (h : v.toNat % 256 = w.toNat % 256) : v.third = w.third := by
  apply Fin.ext
  simp only [third]
  omega

theorem last_eq_of_mod (h : v.toNat % 16 = w.toNat % 16) : v.last = w.last := Fin.ext h

end Word

/-! ## Encoding what was decoded -/

/-- The operands that a layout reads from a word that it accepts make up the word again. -/
theorem Layout.word_operands {l : Layout} {w : Word} (h : l.accepts w = true) :
    l.word w.family (l.operands w) = w := by
  have hw := w.ofNibbles_nibbles
  cases l with
  | fixed b c d =>
    simp only [accepts, Bool.and_eq_true, beq_iff_eq] at h
    obtain ⟨⟨rfl, rfl⟩, rfl⟩ := h
    exact hw
  | address =>
    have hmod : w.address.toNat = w.toNat % 4096 := w.toNat_address
    have hsecond : w.address.second = w.second := Word.second_eq_of_mod (by omega)
    have hthird : w.address.third = w.third := Word.third_eq_of_mod (by omega)
    have hlast : w.address.last = w.last := Word.last_eq_of_mod (by omega)
    simp only [word, operands, hsecond, hthird, hlast]
    exact hw
  | registerByte =>
    have hmod : (w % 256).toNat = w.toNat % 256 := UInt16.toNat_mod w 256
    have hthird : (w % 256).third = w.third := Word.third_eq_of_mod (by omega)
    have hlast : (w % 256).last = w.last := Word.last_eq_of_mod (by omega)
    simp only [word, operands, hthird, hlast]
    exact hw
  | registers d =>
    simp only [accepts, beq_iff_eq] at h
    obtain rfl := h
    exact hw
  | registersDigit =>
    have hmod : (w % 16).toNat = w.toNat % 16 := UInt16.toNat_mod w 16
    have hlast : (w % 16).last = w.last := Word.last_eq_of_mod (by omega)
    simp only [word, operands, hlast]
    exact hw
  | register c d =>
    simp only [accepts, Bool.and_eq_true, beq_iff_eq] at h
    obtain ⟨rfl, rfl⟩ := h
    exact hw

theorem Pattern.word_operands {p : Pattern} {w : Word} (h : p.accepts w = true) :
    p.layout.word p.family (p.layout.operands w) = w := by
  rw [accepts, Bool.and_eq_true, beq_iff_eq] at h
  rw [h.1]
  exact Layout.word_operands h.2

namespace Instruction

theorem encode_of_decode {w : Word} {i : Instruction} (h : decode w = some i) : i.encode = w := by
  obtain ⟨haccepts, hoperands⟩ := accepts_of_decode h
  rw [encode, hoperands]
  exact Pattern.word_operands haccepts

theorem encode_awaitKey {i : Instruction} (h : i.operation = .awaitKey) :
    i.encode = .ofNibbles 0xF i.x 0x0 0xA := by
  rw [encode, h]
  rfl

theorem encode_ret {i : Instruction} (h : i.operation = .ret) : i.encode = 0x00EE := by
  rw [encode, h]
  rfl

theorem encode_jump {i : Instruction} (h : i.operation = .jump) :
    i.encode = 0x1000 + i.address := by
  rw [encode, h]
  change Word.ofNibbles 0x1 i.immediate.second i.immediate.third i.immediate.last = _
  apply UInt16.toNat_inj.mp
  have hword := i.immediate.toNat_lt
  have hfamily : (1 : Nibble).val = 1 := rfl
  rw [Word.toNat_ofNibbles, UInt16.toNat_add, Operands.address, Word.toNat_address]
  simp only [Word.second, Word.third, Word.last, UInt16.reduceToNat]
  omega

/-! ## Instructions that refer to a place

The operations that refer to a place in the program have a family of words each to themselves. -/

/-- All words of the family of such an operation stand for it. -/
theorem decode_address {w : Word} {op : Operation}
    (hop : op ∈ [.jump, .call, .loadIndex, .jumpOffset]) (h : w.family = op.pattern.family) :
    decode w = some { immediate := w.address, operation := op } := by
  simp only [List.mem_cons, List.not_mem_nil, or_false] at hop
  have hfind : instructionSet.find? (fun op => op.pattern.accepts w) = some op := by
    rcases hop with rfl | rfl | rfl | rfl
    all_goals
      simp only [Operation.pattern] at h
      simp [instructionSet, Pattern.accepts, Operation.pattern, Layout.accepts, h]
  rw [decode, hfind, Option.map_some]
  rcases hop with rfl | rfl | rfl | rfl
  all_goals rfl

/-- All words of the family of jumps are jumps. -/
theorem decode_jump {w : Word} (h : w.family = 0x1) :
    decode w = some { immediate := w.address, operation := .jump } :=
  decode_address (by decide) h

theorem label?_eq_some_iff {i : Instruction} {target : Word} :
    i.label? = some target ↔
      i.operation ∈ [.jump, .call, .loadIndex, .jumpOffset] ∧ i.address = target := by
  rw [label?]
  cases i.operation with
  | jump | call | loadIndex | jumpOffset => simp
  | _ => simp

/-- The words that refer to a place are those of four families, and the place is what else the word
says. -/
theorem label?_decode_eq_some_iff {w target : Word} :
    (decode w).bind label? = some target ↔
      w.family ∈ [0x1, 0x2, 0xA, 0xB] ∧ w.address = target := by
  rw [Option.bind_eq_some_iff]
  constructor
  · rintro ⟨i, hdecode, hlabel⟩
    obtain ⟨hop, rfl⟩ := label?_eq_some_iff.mp hlabel
    obtain ⟨haccepts, hoperands⟩ := accepts_of_decode hdecode
    simp only [Pattern.accepts, Bool.and_eq_true, beq_iff_eq] at haccepts
    simp only [List.mem_cons, List.not_mem_nil, or_false] at hop
    rw [← haccepts.1, Operands.address, hoperands]
    rcases hop with hop | hop | hop | hop
    all_goals
      rw [hop]
      exact ⟨by decide, w.address_address.symm⟩
  · rintro ⟨hfamily, rfl⟩
    have hfound : ∃ op ∈ [Operation.jump, .call, .loadIndex, .jumpOffset],
        op.pattern.family = w.family := by
      generalize w.family = family at hfamily ⊢
      revert family
      decide
    obtain ⟨op, hop, hfamily⟩ := hfound
    exact ⟨_, decode_address hop hfamily.symm, label?_eq_some_iff.mpr ⟨hop, w.address_address⟩⟩

end Instruction

end ChipEight
