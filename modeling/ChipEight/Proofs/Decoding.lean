import Mathlib.Data.List.Pairwise
import ChipEight.Proofs.Encoding

/-!
# Decoding what was encoded

An instruction is written as a word field by field. The family and the fixed nibbles of its pattern
stand in their places, the registers in theirs, and the immediate in the low bits. Decoding reads
the same fields, so it gets back the operands of which the pattern has a field. Whether it also gets
back the operation depends on the set of patterns as a whole: the word must not be taken for an
instance of another pattern.

Two patterns have no word in common if their families differ, or if both fix a nibble in the same
place and to different values. That is so of any two patterns from `hostRoutine` on. The two
operations that stand before it have one word each, and these are words of `hostRoutine` as well. For
all other words there is one pattern at most, and then it does not matter in which order the
patterns are tried.

## Main definitions

- `Pattern.Matches`: the words of a pattern
- `Pattern.apart`: patterns that differ in a nibble that both of them fix
- `Layout.Fits`, `Layout.named`: operands that the fields can hold, and those that have a field at
  all
- `Instruction.WrittenAs`: what the word of an instruction looks like
- `Instruction.decodeIn`: decoding with the patterns in another order

## Main statements

- `Operation.pairwise_apart`: which patterns differ so
- `Instruction.writtenAs_iff`: how instructions are encoded
- `Instruction.decode_undoes_encode`: encoding and decoding
-/

namespace ChipEight

/-! ## Words of a pattern -/

/-- The family and all fixed nibbles of the pattern stand in the word. -/
def Pattern.Matches (p : Pattern) (w : Word) : Prop :=
  w.family = p.family ∧ ∀ f ∈ p.layout.fields.zip [w.second, w.third, w.last],
    ∀ value, f.1 = .fixed value → f.2 = value

theorem Field.accepts_iff {f : Field} {n : Nibble} :
    f.accepts n = true ↔ ∀ value, f = .fixed value → n = value := by
  cases f with
  | fixed value =>
    simp only [accepts, beq_iff_eq, Field.fixed.injEq, forall_eq']
    exact eq_comm
  | _ => simp [accepts]

theorem Pattern.accepts_iff_matches {p : Pattern} {w : Word} :
    p.accepts w = true ↔ p.Matches w := by
  rw [accepts, Bool.and_eq_true, beq_iff_eq, Layout.accepts_eq_fields, List.all_eq_true, Matches,
    eq_comm]
  simp only [Field.accepts_iff]

/-! ## Patterns without a common word -/

/-- Two fields that cannot take the same nibble. -/
def Field.clashes : Field → Field → Bool
  | .fixed a, .fixed b => a != b
  | _, _ => false

theorem Field.not_accepts_of_clashes {f g : Field} {n : Nibble} (h : f.clashes g = true)
    (hf : f.accepts n = true) : g.accepts n = false := by
  cases f with
  | fixed a =>
    cases g with
    | fixed b =>
      obtain rfl := beq_iff_eq.mp hf
      rw [clashes, bne_comm] at h
      exact beq_eq_false_iff_ne.mpr (bne_iff_ne.mp h)
    | _ => cases h
  | _ => cases h

/-- One clash is enough for the nibbles that all the fields take. -/
theorem Field.not_accepts_of_any_clashes {fs gs : List Field} {ns : List Nibble}
    (hlength : fs.length ≤ ns.length) (hclash : (fs.zip gs).any (fun p => p.1.clashes p.2) = true)
    (hf : (fs.zip ns).all (fun p => p.1.accepts p.2) = true) :
    (gs.zip ns).all (fun p => p.1.accepts p.2) = false := by
  -- The three lists are gone through together, until the fields clash.
  induction fs generalizing gs ns with
  | nil => cases hclash
  | cons f fs ih =>
    cases ns with
    | nil => cases hlength
    | cons n ns =>
      cases gs with
      | nil => cases hclash
      | cons g gs =>
        simp only [List.zip_cons_cons, List.any_cons, List.all_cons, Bool.or_eq_true,
          Bool.and_eq_true, Bool.and_eq_false_iff] at hclash hf ⊢
        rcases hclash with hhead | htail
        · exact .inl (Field.not_accepts_of_clashes hhead hf.1)
        · exact .inr (ih (Nat.le_of_succ_le_succ hlength) htail hf.2)

theorem Layout.length_fields (l : Layout) : l.fields.length = 3 := by
  cases l <;> rfl

/-- The families differ, or there is a nibble that both patterns fix to different values. -/
def Pattern.apart (p q : Pattern) : Bool :=
  p.family != q.family || (p.layout.fields.zip q.layout.fields).any fun f => f.1.clashes f.2

theorem Pattern.not_accepts_of_apart {p q : Pattern} {w : Word} (h : p.apart q = true)
    (hp : p.accepts w = true) : q.accepts w = false := by
  rw [accepts, Bool.and_eq_true, beq_iff_eq, Layout.accepts_eq_fields] at hp
  rw [accepts, Layout.accepts_eq_fields, Bool.and_eq_false_iff]
  rw [apart, Bool.or_eq_true] at h
  rcases h with hfamily | hclash
  · have hne : q.family ≠ w.family := hp.1 ▸ (bne_iff_ne.mp hfamily).symm
    exact .inl (beq_eq_false_iff_ne.mpr hne)
  · exact .inr (Field.not_accepts_of_any_clashes (Nat.le_of_eq p.layout.length_fields) hclash hp.2)

namespace Operation

/-- All patterns but the first two are apart from each other. -/
theorem pairwise_apart :
    (instructionSet.drop 2).Pairwise fun op op' => op.pattern.apart op'.pattern = true := by
  decide

/-- No word is accepted by the patterns of both operations. -/
def Disjoint (op op' : Operation) : Prop :=
  ∀ w, ¬(op.pattern.accepts w = true ∧ op'.pattern.accepts w = true)

instance : Std.Symm Disjoint := ⟨fun _ _ h w hboth => h w hboth.symm⟩

theorem pairwise_disjoint : (instructionSet.drop 2).Pairwise Disjoint := by
  refine pairwise_apart.imp fun hapart w ⟨hop, hop'⟩ => ?_
  rw [Pattern.not_accepts_of_apart hapart hop] at hop'
  cases hop'

/-- Those are the patterns of all other operations. -/
theorem mem_drop_two {op : Operation} (hclear : op ≠ .clearScreen) (hret : op ≠ .ret) :
    op ∈ instructionSet.drop 2 := by
  -- The set has been written out with its first two operations in front.
  have hmem : op ∈ [.clearScreen, .ret] ++ instructionSet.drop 2 := mem_instructionSet op
  exact (List.mem_append.mp hmem).resolve_left (by simp [hclear, hret])

variable {op op' : Operation} {w : Word}

/-- The first two patterns have one word each. -/
theorem eq_of_accepts_clearScreen (h : clearScreen.pattern.accepts w = true) : w = 0x00E0 :=
  (Pattern.word_operands h).symm

theorem eq_of_accepts_ret (h : ret.pattern.accepts w = true) : w = 0x00EE :=
  (Pattern.word_operands h).symm

/-- At most one of the other patterns accepts a word. -/
theorem eq_of_mem_drop_two (hop : op ∈ instructionSet.drop 2) (hop' : op' ∈ instructionSet.drop 2)
    (h : op.pattern.accepts w = true) (h' : op'.pattern.accepts w = true) : op = op' := by
  by_contra hne
  exact pairwise_disjoint.forall hop hop' hne w ⟨h, h'⟩

/-- But for two words, there is one pattern at most that accepts a word. -/
theorem eq_of_accepts (hclear : w ≠ 0x00E0) (hret : w ≠ 0x00EE)
    (h : op.pattern.accepts w = true) (h' : op'.pattern.accepts w = true) : op = op' := by
  have hmem : ∀ {op : Operation}, op.pattern.accepts w = true → op ∈ instructionSet.drop 2 := by
    intro op h
    apply mem_drop_two
    · rintro rfl
      exact hclear (eq_of_accepts_clearScreen h)
    · rintro rfl
      exact hret (eq_of_accepts_ret h)
  exact eq_of_mem_drop_two (hmem h) (hmem h') h h'

end Operation

/-! ## Operands and their fields -/

namespace Layout

/-- The immediate fits the fields that hold it. Registers always do. -/
def Fits (l : Layout) (o : Operands) : Prop :=
  (.address ∈ l.fields → o.immediate.toNat < 4096) ∧
    (.byte ∈ l.fields → o.immediate.toNat < 256) ∧ (.digit ∈ l.fields → o.immediate.toNat < 16)

instance (l : Layout) (o : Operands) : Decidable (l.Fits o) :=
  inferInstanceAs (Decidable ((_ → _) ∧ (_ → _) ∧ (_ → _)))

/-- The operands of which the layout has a field. The others are zero. -/
def named (l : Layout) (o : Operands) : Operands where
  x := if .x ∈ l.fields then o.x else 0
  y := if .y ∈ l.fields then o.y else 0
  immediate :=
    if .address ∈ l.fields ∨ .byte ∈ l.fields ∨ .digit ∈ l.fields then o.immediate else 0

/-- The operands stand in a word: registers in their fields, and the immediate in as many of the low
bits as its fields have. -/
def Carries (l : Layout) (o : Operands) (w : Word) : Prop :=
  (∀ f ∈ l.fields.zip [w.second, w.third, w.last],
      (f.1 = .x → f.2 = o.x) ∧ (f.1 = .y → f.2 = o.y)) ∧
    (.address ∈ l.fields → w.toNat % 4096 = o.immediate.toNat) ∧
    (.byte ∈ l.fields → w.toNat % 256 = o.immediate.toNat) ∧
    (.digit ∈ l.fields → w.toNat % 16 = o.immediate.toNat)

variable {l : Layout} {o : Operands} {w : Word} {family : Nibble}

/-- Reading a word gives the operands that stand in it. -/
theorem carries_iff : l.Carries o w ↔ l.operands w = l.named o := by
  have haddress : w.toNat % 4096 = o.immediate.toNat ↔ w.address = o.immediate := by
    rw [← UInt16.toNat_inj, Word.toNat_address]
  have hbyte : w.toNat % 256 = o.immediate.toNat ↔ w % 256 = o.immediate := by
    rw [← UInt16.toNat_inj, UInt16.toNat_mod]
    rfl
  have hdigit : w.toNat % 16 = o.immediate.toNat ↔ w % 16 = o.immediate := by
    rw [← UInt16.toNat_inj, UInt16.toNat_mod]
    rfl
  rw [Carries, haddress, hbyte, hdigit]
  cases l <;> simp [fields, operands, named, and_assoc]

theorem carries_word (h : l.Fits o) : l.Carries o (l.word family o) := by
  obtain ⟨haddress, hbyte, hdigit⟩ := h
  cases l with
  | address =>
    have hlt := haddress (by decide)
    have hlow : (Word.ofNibbles family o.immediate.second o.immediate.third
        o.immediate.last).toNat % 4096 = o.immediate.toNat := by
      rw [Word.toNat_ofNibbles]
      simp only [Word.second, Word.third, Word.last]
      omega
    simp [Carries, fields, word, hlow]
  | registerByte =>
    have hlt := hbyte (by decide)
    have hlow : (Word.ofNibbles family o.x o.immediate.third o.immediate.last).toNat % 256
        = o.immediate.toNat := by
      rw [Word.toNat_ofNibbles]
      simp only [Word.third, Word.last]
      omega
    simp [Carries, fields, word, hlow]
  | registersDigit =>
    have hlt := hdigit (by decide)
    have hlow : (Word.ofNibbles family o.x o.y o.immediate.last).toNat % 16
        = o.immediate.toNat := by
      rw [Word.toNat_ofNibbles]
      simp only [Word.last]
      omega
    simp [Carries, fields, word, hlow]
  | _ => simp [Carries, fields, word]

theorem carries_operands : l.Carries (l.operands w) w := by
  rw [carries_iff]
  cases l <;> simp [operands, named, fields]

/-- An immediate that stands in a word fits. -/
theorem Carries.fits (h : l.Carries o w) : l.Fits o := by
  obtain ⟨-, haddress, hbyte, hdigit⟩ := h
  refine ⟨fun hmem => ?_, fun hmem => ?_, fun hmem => ?_⟩
  · rw [← haddress hmem]
    exact Nat.mod_lt _ (by decide)
  · rw [← hbyte hmem]
    exact Nat.mod_lt _ (by decide)
  · rw [← hdigit hmem]
    exact Nat.mod_lt _ (by decide)

theorem accepts_word : l.accepts (l.word family o) = true := by
  cases l <;> simp [accepts, word]

/-- An operand that has no field does not matter to the word. -/
theorem word_named : l.word family (l.named o) = l.word family o := by
  cases l <;> simp [word, named, fields]

end Layout

namespace Instruction

variable {i : Instruction} {w : Word}

def Fits (i : Instruction) : Prop := i.operation.layout.Fits i.toOperands

instance (i : Instruction) : Decidable i.Fits :=
  inferInstanceAs (Decidable (i.operation.layout.Fits i.toOperands))

/-- The instruction without the operands that cannot be seen in its word. -/
def named (i : Instruction) : Instruction :=
  { i with toOperands := i.operation.layout.named i.toOperands }

/-- The word is the one of the instruction, field by field. -/
def WrittenAs (i : Instruction) (w : Word) : Prop :=
  i.operation.pattern.Matches w ∧ i.operation.layout.Carries i.toOperands w

theorem accepts_encode (i : Instruction) : i.operation.pattern.accepts i.encode = true := by
  rw [Pattern.accepts, Bool.and_eq_true, beq_iff_eq, encode]
  refine ⟨?_, Layout.accepts_word⟩
  cases i.operation.layout <;> simp [Layout.word]

theorem operands_encode (h : i.Fits) :
    i.operation.layout.operands i.encode = i.named.toOperands :=
  Layout.carries_iff.mp (Layout.carries_word h)

/-- There is one such word, if the immediate fits. -/
theorem writtenAs_iff (h : i.Fits) : i.WrittenAs w ↔ i.encode = w := by
  rw [WrittenAs, Layout.carries_iff, ← Pattern.accepts_iff_matches]
  constructor
  · rintro ⟨haccepts, hoperands⟩
    -- What is read from the word is all that encoding needs.
    rw [encode, ← Layout.word_named, ← hoperands]
    exact Pattern.word_operands haccepts
  · rintro rfl
    exact ⟨i.accepts_encode, operands_encode h⟩

/-! ## Decoding in any order -/

/-- The instruction that a word stands for if the patterns are tried in the given order. -/
def decodeIn (order : List Operation) (w : Word) : Option Instruction :=
  (order.find? fun op => op.pattern.accepts w).map fun op =>
    { toOperands := op.layout.operands w, operation := op }

theorem decodeIn_instructionSet : decodeIn instructionSet w = decode w := rfl

theorem decodeIn_of_accepts {order : List Operation} {op : Operation} (hmem : op ∈ order)
    (hclear : w ≠ 0x00E0) (hret : w ≠ 0x00EE) (h : op.pattern.accepts w = true) :
    decodeIn order w = some { toOperands := op.layout.operands w, operation := op } := by
  -- Some pattern is found, and it accepts the word. There is no other than this one.
  have hfound : (order.find? fun op => op.pattern.accepts w).isSome :=
    List.find?_isSome.mpr ⟨op, hmem, h⟩
  obtain ⟨op', hop'⟩ := Option.isSome_iff_exists.mp hfound
  have haccepts : op'.pattern.accepts w = true := by simpa using List.find?_some hop'
  obtain rfl := Operation.eq_of_accepts hclear hret h haccepts
  rw [decodeIn, hop', Option.map_some]

theorem decodeIn_eq_none_iff {order : List Operation} :
    decodeIn order w = none ↔ ∀ op ∈ order, op.pattern.accepts w = false := by
  simp [decodeIn]

/-- But for two words, any order will do. -/
theorem decodeIn_eq_decode {order : List Operation} (horder : order.Perm instructionSet)
    (hclear : w ≠ 0x00E0) (hret : w ≠ 0x00EE) : decodeIn order w = decode w := by
  rw [← decodeIn_instructionSet]
  by_cases h : ∃ op : Operation, op.pattern.accepts w = true
  · obtain ⟨op, hop⟩ := h
    have hmem := mem_instructionSet op
    rw [decodeIn_of_accepts (horder.mem_iff.mpr hmem) hclear hret hop,
      decodeIn_of_accepts hmem hclear hret hop]
  · have hnone : ∀ op : Operation, op.pattern.accepts w = false :=
      fun op => Bool.eq_false_iff.mpr fun hop => h ⟨op, hop⟩
    rw [decodeIn_eq_none_iff.mpr fun op _ => hnone op, decodeIn_eq_none_iff.mpr fun op _ => hnone op]

/-- In the opposite order the host routines hide what has been listed before them. -/
theorem decodeIn_reverse (w : Word) (h : w = 0x00E0 ∨ w = 0x00EE) :
    decodeIn instructionSet.reverse w ≠ decode w := by
  rcases h with rfl | rfl
  · decide
  · decide

/-! ## Encoding and decoding -/

theorem fits_of_decode (h : decode w = some i) : i.Fits := by
  obtain ⟨-, hoperands⟩ := accepts_of_decode h
  rw [Fits, hoperands]
  exact Layout.carries_operands.fits

theorem encode_clearScreen (hop : i.operation = .clearScreen) : i.encode = 0x00E0 := by
  rw [encode, hop]
  rfl

theorem encode_hostRoutine (hop : i.operation = .hostRoutine) :
    i.encode = .ofNibbles 0x0 i.immediate.second i.immediate.third i.immediate.last := by
  rw [encode, hop]
  rfl

/-- The immediate of a host routine is all that its word says beside the family. -/
theorem address_encode_hostRoutine (hop : i.operation = .hostRoutine) (h : i.Fits) :
    i.encode.address = i.immediate := by
  have hoperands := operands_encode h
  rw [named, hop] at hoperands
  exact congrArg Operands.immediate hoperands

/-- Only two host routines have the words of the first two patterns. -/
theorem encode_ne_of_mem_drop_two (hmem : i.operation ∈ instructionSet.drop 2) (h : i.Fits)
    (hlisted : ¬(i.operation = .hostRoutine ∧ (i.immediate = 0x0E0 ∨ i.immediate = 0x0EE))) :
    i.encode ≠ 0x00E0 ∧ i.encode ≠ 0x00EE := by
  have hhost : ∀ {w : Word}, i.encode = w → Operation.hostRoutine.pattern.accepts w = true →
      i.operation = .hostRoutine ∧ w.address = i.immediate := by
    rintro _ rfl haccepts
    have hop := Operation.eq_of_mem_drop_two hmem (by decide) i.accepts_encode haccepts
    exact ⟨hop, address_encode_hostRoutine hop h⟩
  constructor
  · intro hclear
    obtain ⟨hop, himmediate⟩ := hhost hclear (by decide)
    exact hlisted ⟨hop, .inl himmediate.symm⟩
  · intro hret
    obtain ⟨hop, himmediate⟩ := hhost hret (by decide)
    exact hlisted ⟨hop, .inr himmediate.symm⟩

/-- An instruction is read as it was written, with the two exceptions. -/
theorem decode_encode (h : i.Fits)
    (hlisted : ¬(i.operation = .hostRoutine ∧ (i.immediate = 0x0E0 ∨ i.immediate = 0x0EE))) :
    decode i.encode = some i.named := by
  -- The first two operations have one word each, whatever operands come with them.
  by_cases hclear : i.operation = .clearScreen
  · have hnamed : i.named = { operation := .clearScreen } := by
      rw [named, hclear]
      rfl
    rw [encode_clearScreen hclear, hnamed]
    rfl
  by_cases hret : i.operation = .ret
  · have hnamed : i.named = { operation := .ret } := by
      rw [named, hret]
      rfl
    rw [encode_ret hret, hnamed]
    rfl
  have hne := encode_ne_of_mem_drop_two (Operation.mem_drop_two hclear hret) h hlisted
  rw [← decodeIn_instructionSet,
    decodeIn_of_accepts (mem_instructionSet i.operation) hne.1 hne.2 i.accepts_encode,
    operands_encode h]
  rfl

/-- **Decoding undoes encoding, and encoding undoes decoding.** An instruction is encoded as the
word that has the family and the fixed nibbles of its pattern, the registers in their fields and the
immediate in the low bits. Decoding the word gives the instruction back, with zero for operands that
have no field. Only two host routines are read as the operations listed before them. On the other
side, an instruction that is read from a word has operands that fit and is encoded as that word, and
nothing is read if the word matches no pattern. The order of the patterns matters to the two words
of these host routines and to no other. -/
theorem decode_undoes_encode (i : Instruction) (h : i.Fits) :
    (∀ w, i.WrittenAs w ↔ i.encode = w) ∧
      (¬(i.operation = .hostRoutine ∧ (i.immediate = 0x0E0 ∨ i.immediate = 0x0EE)) →
        decode i.encode = some i.named) ∧
      (i.operation = .hostRoutine → i.immediate = 0x0E0 →
        decode i.encode = some { operation := .clearScreen }) ∧
      (i.operation = .hostRoutine → i.immediate = 0x0EE →
        decode i.encode = some { operation := .ret }) ∧
      (∀ w j, decode w = some j → j.Fits ∧ j.encode = w) ∧
      (∀ w, decode w = none ↔ ∀ op ∈ instructionSet, ¬op.pattern.Matches w) ∧
      (∀ w, (∀ order : List Operation, order.Perm instructionSet → decodeIn order w = decode w) ↔
        w ≠ 0x00E0 ∧ w ≠ 0x00EE) := by
  refine ⟨fun w => writtenAs_iff h, decode_encode h, ?_, ?_, ?_, ?_, ?_⟩
  · intro hop himmediate
    rw [encode_hostRoutine hop, himmediate]
    rfl
  · intro hop himmediate
    rw [encode_hostRoutine hop, himmediate]
    rfl
  · exact fun w j hj => ⟨fits_of_decode hj, encode_of_decode hj⟩
  · intro w
    rw [← decodeIn_instructionSet, decodeIn_eq_none_iff]
    refine forall₂_congr fun op _ => ?_
    rw [← Pattern.accepts_iff_matches, Bool.not_eq_true]
  · intro w
    constructor
    · intro hany
      have hreverse := hany instructionSet.reverse (List.reverse_perm _)
      exact ⟨fun hclear => decodeIn_reverse w (.inl hclear) hreverse,
        fun hret => decodeIn_reverse w (.inr hret) hreverse⟩
    · rintro ⟨hclear, hret⟩ order horder
      exact decodeIn_eq_decode horder hclear hret

/-- A register that has no field is lost, and a host routine is hidden by the return. -/
theorem decode_undoes_encode_hidden :
    decode (encode { x := 3, y := 7, immediate := 0x45, operation := .loadByte })
        = some { x := 3, immediate := 0x45, operation := .loadByte } ∧
      decode (encode { immediate := 0x0EE, operation := .hostRoutine })
        = some { operation := .ret } := by
  obtain ⟨-, hnamed, -⟩ := decode_undoes_encode
    { x := 3, y := 7, immediate := 0x45, operation := .loadByte } (by decide)
  obtain ⟨-, -, -, hret, -⟩ := decode_undoes_encode
    { immediate := 0x0EE, operation := .hostRoutine } (by decide)
  exact ⟨hnamed (by decide), hret rfl rfl⟩

end Instruction

end ChipEight
