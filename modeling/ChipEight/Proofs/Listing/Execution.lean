import ChipEight.Listing
import ChipEight.Proofs.Machine.LastWriter

/-!
# The listing and the machine

A listing takes a program apart before it is run. The machine fetches words from memory while it
runs, and memory changes. Both see the same words as long as no store covers them: a program stands
in memory just where its listing says, so the word at an address is the one that is listed there.

At such a word the machine therefore performs the instruction that is listed, and reports it with
the text of the listing. Where data is listed it fails, and it fails for want of an instruction
nowhere else. The places that it is led to are labels.

## Main statements

- `Machine.Chronicle.word_listed`: a word that no store has covered is the one that is listed
- `Machine.step_follows_listing`: a step at such a word does what is listed
-/

namespace ChipEight

/-- The text of an instruction in a listing is the one that is reported of it. -/
theorem Entry.message_executing {e : Entry} {i : Instruction} (hi : e.instruction? = some i) :
    (Event.executing e.address e.word i).message =
      ⟨.trace, Hex.padded 4 e.address.toNat ++ ": " ++ Hex.padded 4 e.word.toNat ++ "  "
        ++ e.text⟩ := by
  rw [Event.message, Entry.text, hi]

namespace Machine

/-! ## Words that are listed -/

/-- A word that no store has covered is the one that is listed at its address. -/
theorem Chronicle.word_listed {m : Machine} {past : List Deed} (hm : m.Chronicle past) {k : Nat}
    {e : Entry} (he : (Disassembly.ofProgram (programOf past)).entries[k]? = some e)
    (hkept : ∀ d ∈ sinceLoad past, ¬d.Covers (0x200 + 2 * k) ∧ ¬d.Covers (0x200 + 2 * k + 1)) :
    m.memory.word (0x200 + 2 * k) = .ok e.word ∧ e.address.toNat = 0x200 + 2 * k := by
  obtain ⟨hk, rfl⟩ := Disassembly.getElem?_entries.mp he
  have hsize := size_programOf_le past
  constructor
  · rw [hm.word_eq hkept]
    exact Memory.word_image hsize (by omega)
  · -- The program ends with memory at most, so its addresses do not wrap round.
    have hstart : AddressSpace.programStart + 2 * k < 65536 := by
      simp only [AddressSpace.programStart]
      omega
    exact UInt16.toNat_ofNat_of_lt' hstart

theorem mem_labels_of_entry {program : Array UInt8} {k : Nat} {e : Entry} {i : Instruction}
    (he : (Disassembly.ofProgram program).entries[k]? = some e) (hi : e.instruction? = some i)
    (hlabel : i.label? = some i.address) :
    i.address ∈ (Disassembly.ofProgram program).labels := by
  apply Disassembly.mem_labels.mpr
  refine ⟨e, List.mem_of_getElem? he, ?_⟩
  rw [Entry.label?, hi]
  exact hlabel

/-- **The machine follows the listing.** Where it stands at a word that no store has covered since
the program was loaded, it fails for want of an instruction just if the word is listed as data.
Otherwise it performs the instruction that is listed and reports it with the text of the listing,
and if it succeeds with a jump, a call or an index load, the place that it is led to is a label. -/
theorem step_follows_listing {m : Machine} {past : List Deed} (hm : m.Chronicle past) {k : Nat}
    {e : Entry} (he : (Disassembly.ofProgram (programOf past)).entries[k]? = some e)
    (hkept : ∀ d ∈ sinceLoad past, ¬d.Covers (0x200 + 2 * k) ∧ ¬d.Covers (0x200 + 2 * k + 1))
    (hrun : m.halted = false) (hpc : m.pc.toNat = 0x200 + 2 * k) :
    e.address = m.pc ∧
    (∀ opcode address, m.step.verdict = .error (.unknownOpcode opcode address) ↔
      e.isData = true ∧ opcode = e.word ∧ address = e.address) ∧
    ∀ i, e.instruction? = some i →
      m.instruction? = some i ∧
      m.step = { m.perform i with
        events := .executing e.address e.word i :: (m.perform i).events } ∧
      (m.step.events.map Event.message).head? =
        some ⟨.trace, Hex.padded 4 e.address.toNat ++ ": " ++ Hex.padded 4 e.word.toNat ++ "  "
          ++ e.text⟩ ∧
      ∀ progress, m.step.verdict = .ok progress →
        (i.operation = .jump ∨ i.operation = .call →
          m.step.machine.pc ∈ (Disassembly.ofProgram (programOf past)).labels) ∧
        (i.operation = .loadIndex →
          m.step.machine.index ∈ (Disassembly.ofProgram (programOf past)).labels) := by
  obtain ⟨hword, haddress⟩ := hm.word_listed he hkept
  rw [← hpc] at hword haddress
  have hplace : e.address = m.pc := UInt16.toNat_inj.mp haddress
  refine ⟨hplace, ?_, ?_⟩
  · -- The word that is fetched is the one that is listed, and both are decoded in the same way.
    intro opcode address
    rw [unknownOpcode_iff hrun hword, hplace, Entry.isData, Option.isNone_iff_eq_none]
    exact Iff.rfl
  · intro i hi
    have hstep := step_of_decode hrun hword hi
    rw [← hplace] at hstep
    refine ⟨instruction?_of_decode hword hi, hstep, ?_, ?_⟩
    · rw [hstep, List.map_cons, List.head?_cons, Entry.message_executing hi]
    · -- A label is what the operand of the instruction says, and so is where the machine goes.
      intro progress hverdict
      rw [hstep] at hverdict ⊢
      constructor
      · intro hop
        change (m.perform i).machine.pc ∈ _
        rw [pc_of_jump hop hverdict]
        apply mem_labels_of_entry he hi
        rcases hop with hjump | hcall
        · rw [Instruction.label?, hjump]
        · rw [Instruction.label?, hcall]
      · intro hop
        change (m.perform i).machine.index ∈ _
        rw [index_of_loadIndex hop]
        apply mem_labels_of_entry he hi
        rw [Instruction.label?, hop]

/-- Behind its two stores the overlapping program jumps to a label, and there data is listed. -/
theorem step_follows_listing_overlapping :
    (inOverlapping bothStored 0x206).Chronicle overlappingPast ∧
      (inOverlapping bothStored 0x206).step.machine = inOverlapping bothStored 0x208 ∧
      0x208 ∈ (Disassembly.ofProgram overlappingProgram).labels ∧
      (inOverlapping bothStored 0x208).step.verdict = .error (.unknownOpcode 0x5001 0x208) := by
  obtain ⟨-, -, hlisted⟩ := step_follows_listing (k := 3) (e := ⟨0x206, 0x1208⟩)
    chronicle_overlappingPast (Disassembly.getElem?_entries.mpr ⟨by decide, rfl⟩)
    (fun d hd => ⟨not_covers_overlappingPast (by decide) d hd,
      not_covers_overlappingPast (by decide) d hd⟩) rfl rfl
  obtain ⟨hjump, hstep, -, hlabels⟩ :=
    hlisted { operation := .jump, immediate := 0x208 } (by decide)
  have hverdict : (inOverlapping bothStored 0x206).step.verdict = .ok .continued := by
    rw [hstep]
    rfl
  have hmachine : (inOverlapping bothStored 0x206).step.machine
      = inOverlapping bothStored 0x208 := by
    rw [hstep]
    rfl
  have hlabel := (hlabels _ hverdict).1 (.inl rfl)
  rw [hmachine] at hlabel
  -- The jump stores nothing, so the word that it leads to is still the one that is listed.
  have hkept : ∀ d ∈ sinceLoad (⟨inOverlapping bothStored 0x206, .step⟩ :: overlappingPast),
      ¬d.Covers 0x208 ∧ ¬d.Covers 0x209 := by
    have hjumps (a : Nat) : ¬(Deed.mk (inOverlapping bothStored 0x206) .step).Covers a := by
      apply Deed.not_covers_of_performed
      · exact (performed?_of_ok rfl hverdict).trans hjump
      · nofun
      · nofun
    rw [sinceLoad_cons_of_none rfl, List.forall_mem_cons]
    exact ⟨⟨hjumps _, hjumps _⟩, fun d hd => ⟨not_covers_overlappingPast (by decide) d hd,
      not_covers_overlappingPast (by decide) d hd⟩⟩
  have hlater := chronicle_overlappingPast.act .step
  rw [act, hmachine] at hlater
  obtain ⟨-, hfails, -⟩ := step_follows_listing (k := 4) (e := ⟨0x208, 0x5001⟩) hlater
    (Disassembly.getElem?_entries.mpr ⟨by decide, rfl⟩) hkept rfl rfl
  exact ⟨chronicle_overlappingPast, hmachine, hlabel, (hfails _ _).mpr ⟨by decide, rfl, rfl⟩⟩

end Machine

end ChipEight
