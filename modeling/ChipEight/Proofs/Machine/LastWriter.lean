import ChipEight.Proofs.Machine.Chronicle

/-!
# The last writer of a byte

Two instructions write to memory: one stores registers and one the decimal digits of a register,
both in a block that starts where the index register points. A byte of memory is what the last store
that covers its address has written there. Where there is none since the last load, it is what
loading left there: a glyph, the program, or zero.

A store that would run out of memory fails as a whole, so it covers nothing.

## Main definitions

- `Machine.Deed.Stores`: the block that a deed writes
- `Machine.Deed.Covers`, `Machine.Deed.Writes`: the addresses of the block, and the bytes there
- `Machine.Deed.MemoryChange`: what a deed does to memory
- `Machine.LastWritten`: what a byte should be, given the deeds since the last load

## Main statements

- `Machine.Deed.Stores.unique`: a deed writes one block at most
- `Machine.memory_last_writer`: memory over every history
-/

namespace ChipEight

/-! ## Writes to memory -/

/-- A write that is not refused puts the whole block into memory. -/
theorem Memory.exists_put_of_write {m n : Memory} {start : Nat} {block : List UInt8}
    (h : m.write start block = .ok n) : ∃ hfits, m.put start block hfits = n := by
  unfold write at h
  split at h
  · exact ⟨_, Except.ok.inj h⟩
  · cases h

/-- Only two bytes of memory matter to the word at an address. -/
theorem Memory.word_congr {m n : Memory} {a : Nat}
    (h : ∀ b, (hb : b < 4096) → b = a ∨ b = a + 1 → m.bytes[b] = n.bytes[b]) :
    m.word a = n.word a := by
  unfold word
  split
  · rw [h a (by omega) (.inl rfl), h (a + 1) (by omega) (.inr rfl)]
  · rfl

/-- A word that lies outside a block is not changed by putting the block into memory. -/
theorem Memory.word_put {m : Memory} {start a : Nat} {block : List UInt8}
    (hfits : start + block.length ≤ 4096) (h : a + 2 ≤ start ∨ start + block.length ≤ a) :
    (m.put start block hfits).word a = m.word a := by
  apply word_congr
  intro b hb hin
  rw [getElem_put, dif_neg]
  omega

namespace Machine

theorem storeBlock_memory {m : Machine} {block : List UInt8} {progress : Progress}
    (h : (m.storeBlock block).verdict = .ok progress) :
    m.memory.write m.index.toNat block = .ok (m.storeBlock block).machine.memory := by
  unfold storeBlock at h ⊢
  split at h
  · cases h
  · assumption

/-! ## Stores -/

namespace Deed

/-- The block that is written where the index register points: the registers V0 to Vx, or three
decimal digits that make up Vx. -/
inductive Stores (d : Deed) : (block : List UInt8) → Prop where
  | registers {i : Instruction} {block : List UInt8} (hi : d.performed? = some i)
      (hop : i.operation = .storeRegisters) (hlength : block.length = i.x.val + 1)
      (hblock : ∀ r : Nibble, r ≤ i.x → block[r.val]? = some (d.before.register r)) :
      d.Stores block
  | digits {i : Instruction} {hundreds tens ones : UInt8} (hi : d.performed? = some i)
      (hop : i.operation = .storeDecimal)
      (hhundreds : hundreds ≤ 9) (htens : tens ≤ 9) (hones : ones ≤ 9)
      (hvalue : 100 * hundreds.toNat + 10 * tens.toNat + ones.toNat
        = (d.before.register i.x).toNat) :
      d.Stores [hundreds, tens, ones]

/-- The address lies in the block that is written. -/
def Covers (d : Deed) (a : Nat) : Prop :=
  ∃ block, d.Stores block ∧ d.before.index.toNat ≤ a ∧ a < d.before.index.toNat + block.length

/-- The byte is written to the address. -/
def Writes (d : Deed) (a : Nat) (b : UInt8) : Prop :=
  ∃ block, d.Stores block ∧ d.before.index.toNat ≤ a ∧ block[a - d.before.index.toNat]? = some b

variable {d : Deed}

theorem Stores.exists_instruction {block : List UInt8} (h : d.Stores block) :
    ∃ i, d.performed? = some i ∧
      (i.operation = .storeRegisters ∨ i.operation = .storeDecimal) := by
  cases h with
  | registers hi hop => exact ⟨_, hi, .inl hop⟩
  | digits hi hop => exact ⟨_, hi, .inr hop⟩

theorem not_stores_of_performed {i : Instruction} (hi : d.performed? = some i)
    (hregisters : i.operation ≠ .storeRegisters) (hdigits : i.operation ≠ .storeDecimal)
    (block : List UInt8) : ¬d.Stores block := by
  intro hblock
  obtain ⟨j, hj, hop⟩ := hblock.exists_instruction
  obtain rfl : i = j := Option.some.inj (hi.symm.trans hj)
  exact hop.elim hregisters hdigits

theorem not_covers_of_performed {i : Instruction} (hi : d.performed? = some i)
    (hregisters : i.operation ≠ .storeRegisters) (hdigits : i.operation ≠ .storeDecimal) (a : Nat) :
    ¬d.Covers a := by
  rintro ⟨block, hblock, -⟩
  exact not_stores_of_performed hi hregisters hdigits block hblock

/-- Three decimal digits are told by the number that they make up. -/
theorem digits_unique {h t o h' t' o' : UInt8} (ht : t ≤ 9) (ho : o ≤ 9) (ht' : t' ≤ 9)
    (ho' : o' ≤ 9)
    (hvalue : 100 * h.toNat + 10 * t.toNat + o.toNat
      = 100 * h'.toNat + 10 * t'.toNat + o'.toNat) :
    [h, t, o] = [h', t', o'] := by
  have hnine : (9 : UInt8).toNat = 9 := rfl
  rw [UInt8.le_iff_toNat_le, hnine] at ht ho ht' ho'
  have hhundreds : h = h' := UInt8.toNat_inj.mp (by omega)
  have htens : t = t' := UInt8.toNat_inj.mp (by omega)
  have hones : o = o' := UInt8.toNat_inj.mp (by omega)
  rw [hhundreds, htens, hones]

/-- A deed writes one block at most. -/
theorem Stores.unique {block block' : List UInt8} (h : d.Stores block) (h' : d.Stores block') :
    block = block' := by
  cases h with
  | @registers i _ hi hop hlength hblock =>
    cases h' with
    | @registers j _ hj _ hlength' hblock' =>
      obtain rfl : i = j := Option.some.inj (hi.symm.trans hj)
      -- The rule says what is in each place, and how many places there are.
      apply List.ext_getElem? fun k => ?_
      rcases Nat.lt_or_ge k (i.x.val + 1) with hlt | hge
      · -- Both hold register `k` at this place.
        have hk : k < 16 := by omega
        have hle : (⟨k, hk⟩ : Nibble) ≤ i.x := Nat.le_of_lt_succ hlt
        exact (hblock ⟨k, hk⟩ hle).trans (hblock' ⟨k, hk⟩ hle).symm
      · rw [List.getElem?_eq_none (hlength ▸ hge), List.getElem?_eq_none (hlength' ▸ hge)]
    | digits hj hop' =>
      obtain rfl := Option.some.inj (hi.symm.trans hj)
      cases hop.symm.trans hop'
  | @digits i _ _ _ hi hop _ ht ho hvalue =>
    cases h' with
    | registers hj hop' =>
      obtain rfl := Option.some.inj (hi.symm.trans hj)
      cases hop.symm.trans hop'
    | @digits j _ _ _ hj _ _ ht' ho' hvalue' =>
      obtain rfl : i = j := Option.some.inj (hi.symm.trans hj)
      exact digits_unique ht ho ht' ho' (hvalue.trans hvalue'.symm)

theorem Stores.covers_iff {block : List UInt8} (h : d.Stores block) (a : Nat) :
    d.Covers a ↔ d.before.index.toNat ≤ a ∧ a < d.before.index.toNat + block.length := by
  constructor
  · rintro ⟨block', h', hin⟩
    rwa [h.unique h']
  · exact fun hin => ⟨block, h, hin⟩

theorem Stores.writes_iff {block : List UInt8} (h : d.Stores block) (a : Nat) (b : UInt8) :
    d.Writes a b ↔
      d.before.index.toNat ≤ a ∧ block[a - d.before.index.toNat]? = some b := by
  constructor
  · rintro ⟨block', h', hin⟩
    rwa [h.unique h']
  · exact fun hin => ⟨block, h, hin⟩

/-! ## The memory of one deed -/

/-- What a deed does to memory. -/
inductive MemoryChange (d : Deed) : Prop where
  | stored {block : List UInt8} (hblock : d.Stores block)
      (hmemory : d.before.memory.write d.before.index.toNat block = .ok d.after.memory)
  | loaded {program : Array UInt8} (hloaded : d.loaded? = some program)
      (haction : d.action = .load program) (hsize : program.size ≤ 3584)
      (hmemory : d.after.memory = .image program)
  | kept (hnone : ∀ block, ¬d.Stores block) (hmemory : d.after.memory = d.before.memory)

/-- The block that an instruction writes for registers is what it should be. -/
theorem stores_registers {i : Instruction} (hi : d.performed? = some i)
    (hop : i.operation = .storeRegisters) :
    d.Stores (d.before.registers.toList.take (i.x.val + 1)) := by
  refine .registers hi hop ?_ ?_
  · rw [List.length_take, Vector.length_toList, Nat.min_eq_left i.x.isLt]
  · intro r hr
    rw [List.getElem?_take_of_lt (Nat.lt_succ_of_le hr), Vector.getElem?_toList]
    exact Vector.getElem?_eq_getElem r.isLt

theorem stores_decimalDigits {i : Instruction} (hi : d.performed? = some i)
    (hop : i.operation = .storeDecimal) :
    d.Stores (decimalDigits (d.before.register i.x)) := by
  have hlt := (d.before.register i.x).toNat_lt
  -- The bounds are proved on numbers, where division and remainder are the usual ones.
  have hnine : (9 : UInt8).toNat = 9 := rfl
  have hten : (10 : UInt8).toNat = 10 := rfl
  have hhundred : (100 : UInt8).toNat = 100 := rfl
  apply Stores.digits hi hop
  · rw [UInt8.le_iff_toNat_le, UInt8.toNat_div, hhundred, hnine]
    omega
  · rw [UInt8.le_iff_toNat_le, UInt8.toNat_mod, hten, hnine]
    exact Nat.le_of_lt_succ (Nat.mod_lt _ (by decide))
  · rw [UInt8.le_iff_toNat_le, UInt8.toNat_mod, hten, hnine]
    exact Nat.le_of_lt_succ (Nat.mod_lt _ (by decide))
  · rw [UInt8.toNat_mod, UInt8.toNat_mod, UInt8.toNat_div, UInt8.toNat_div, hten, hhundred]
    omega

theorem memoryChange (d : Deed) : d.MemoryChange := by
  cases d.cases with
  | @performed i progress _ hperformed _ _ _ hverdict hafter =>
    by_cases hregisters : i.operation = .storeRegisters
    · refine .stored (stores_registers hperformed hregisters) ?_
      rw [hafter]
      simp only [perform, hregisters] at hverdict ⊢
      exact storeBlock_memory hverdict
    · by_cases hdigits : i.operation = .storeDecimal
      · refine .stored (stores_decimalDigits hperformed hdigits) ?_
        rw [hafter]
        simp only [perform, hdigits] at hverdict ⊢
        exact storeBlock_memory hverdict
      · -- No other instruction has memory among its targets.
        refine .kept (not_stores_of_performed hperformed hregisters hdigits) ?_
        rw [hafter]
        apply d.before.perform_agrees (p := .memory) (by decide)
        cases hop : i.operation <;> simp [targets]
        · exact hdigits hop
        · exact hregisters hop
  | loaded hloaded _ haction hsize hafter =>
    refine .loaded hloaded haction hsize ?_
    rw [hafter]
    rfl
  | input _ hperformed halike =>
    refine .kept ?_ halike.memory
    intro block hblock
    obtain ⟨i, hi, -⟩ := hblock.exists_instruction
    cases hperformed.symm.trans hi

/-- A block that a deed writes is put into memory as a whole. -/
theorem Stores.write {block : List UInt8} (h : d.Stores block) :
    d.before.memory.write d.before.index.toNat block = .ok d.after.memory := by
  cases d.memoryChange with
  | stored hwritten hmemory => rwa [h.unique hwritten]
  | loaded _ haction =>
    -- A load is no store.
    obtain ⟨i, hi, -⟩ := h.exists_instruction
    simp [performed?, haction] at hi
  | kept hnone => exact absurd h (hnone block)

/-- A deed writes to the addresses that it covers. -/
theorem writes_of_covers {a : Nat} (ha : a < 4096) (h : d.Covers a) :
    d.Writes a d.after.memory.bytes[a] := by
  obtain ⟨block, hblock, hle, hlt⟩ := h
  have hin : a - d.before.index.toNat < block.length := by omega
  obtain ⟨hfits, hput⟩ := Memory.exists_put_of_write hblock.write
  refine ⟨block, hblock, hle, ?_⟩
  rw [← hput, Memory.getElem_put _ _ _ hfits a ha, dif_pos ⟨hle, hin⟩]
  exact List.getElem?_eq_getElem hin

/-- A deed that loads nothing leaves all other addresses alone. -/
theorem getElem_of_not_covers {a : Nat} (ha : a < 4096) (hloaded : d.loaded? = none)
    (h : ¬d.Covers a) : d.after.memory.bytes[a] = d.before.memory.bytes[a] := by
  cases d.memoryChange with
  | @stored block hblock hmemory =>
    obtain ⟨hfits, hput⟩ := Memory.exists_put_of_write hmemory
    rw [← hput, Memory.getElem_put _ _ _ hfits a ha, dif_neg]
    rintro ⟨hle, hlt⟩
    exact h ⟨block, hblock, hle, by omega⟩
  | loaded hprogram => cases hloaded.symm.trans hprogram
  | kept _ hmemory => rw [hmemory]

end Deed

/-! ## All histories -/

/-- What the byte at an address should be, given the deeds since the last load and the program that
was loaded then: what the last deed that covers the address wrote, and if none does, what loading
left there of the glyphs, of the program, or zero. -/
structure LastWritten (program : Array UInt8) (recent : List Deed) (a : Nat) (b : UInt8) :
    Prop where
  stored : ∀ later d earlier, recent = later ++ d :: earlier → (∀ e ∈ later, ¬e.Covers a) →
    d.Covers a → d.Writes a b
  initial : (∀ d ∈ recent, ¬d.Covers a) → (Memory.image program).bytes[a]? = some b

theorem Chronicle.lastWritten {m : Machine} {past : List Deed} (hm : m.Chronicle past) {a : Nat}
    (ha : a < 4096) : LastWritten (programOf past) (sinceLoad past) a m.memory.bytes[a] := by
  apply hm.sinceLoad_invariant (P := fun program recent m =>
    LastWritten program recent a m.memory.bytes[a])
  · -- Right after a load there was no store, and the byte is the initial one.
    intro program random
    constructor
    · intro later d earlier hsplit
      cases later <;> cases hsplit
    · intro _
      exact Vector.getElem?_eq_getElem ha
  · intro program d recent hloaded hbefore
    constructor
    · intro later e earlier hsplit hlater he
      cases later with
      | nil =>
        -- The newest deed is the last store.
        obtain ⟨rfl, -⟩ := List.cons.inj hsplit
        exact Deed.writes_of_covers ha he
      | cons newest later =>
        -- The newest deed is behind the last store, and leaves the byte alone.
        obtain ⟨rfl, hrest⟩ := List.cons.inj hsplit
        obtain ⟨hnewest, hlater⟩ := List.forall_mem_cons.mp hlater
        rw [Deed.getElem_of_not_covers ha hloaded hnewest]
        exact hbefore.stored later e earlier hrest hlater he
    · intro hnone
      obtain ⟨hnewest, hrest⟩ := List.forall_mem_cons.mp hnone
      rw [Deed.getElem_of_not_covers ha hloaded hnewest]
      exact hbefore.initial hrest

/-- A word that no store has covered is what loading left there. -/
theorem Chronicle.word_eq {m : Machine} {past : List Deed} (hm : m.Chronicle past) {a : Nat}
    (h : ∀ d ∈ sinceLoad past, ¬d.Covers a ∧ ¬d.Covers (a + 1)) :
    m.memory.word a = (Memory.image (programOf past)).word a := by
  apply Memory.word_congr
  intro b hb hin
  have hnone : ∀ d ∈ sinceLoad past, ¬d.Covers b := by
    rcases hin with rfl | rfl
    · exact fun d hd => (h d hd).1
    · exact fun d hd => (h d hd).2
  have hinitial := (hm.lastWritten hb).initial hnone
  rw [Vector.getElem?_eq_getElem hb] at hinitial
  exact (Option.some.inj hinitial).symm

/-- **Memory is what was written last.** Every byte of memory is what the last store since the last
load wrote there, or what loading left there. Nothing but a store, and a load that is not refused,
does anything to memory. -/
theorem memory_last_writer {m : Machine} {past : List Deed} (hm : m.Chronicle past) :
    (∀ a, (ha : a < 4096) →
      LastWritten (programOf past) (sinceLoad past) a m.memory.bytes[a]) ∧
    ∀ a : Action,
      (m.act a).memory = m.memory ∨
        (a = .step ∧ ∃ i, m.performed? = some i ∧
          (i.operation = .storeRegisters ∨ i.operation = .storeDecimal)) ∨
        ∃ program, a = .load program ∧ program.size ≤ 3584 := by
  refine ⟨fun a ha => hm.lastWritten ha, fun a => ?_⟩
  cases (Deed.mk m a).memoryChange with
  | stored hblock =>
    obtain ⟨i, hi, hop⟩ := hblock.exists_instruction
    cases a with
    | step => exact .inr (.inl ⟨rfl, i, hi, hop⟩)
    | _ => cases hi
  | loaded _ haction hsize => exact .inr (.inr ⟨_, haction, hsize⟩)
  | kept _ hmemory => exact .inl hmemory

/-- It puts 123 into V0, stores the digits of it, and then V0 itself over the first of them. Behind
that it jumps to its last word, which is no instruction. -/
def overlappingProgram : Array UInt8 :=
  #[0x60, 0x7B, 0xF0, 0x33, 0xF0, 0x55, 0x12, 0x08, 0x50, 0x01]

/-- A machine somewhere in the program, with 123 in V0. -/
def inOverlapping (memory : Memory) (pc : Word) : Machine :=
  { (fresh memory (.ofSeed 0)).setRegister 0 123 with pc := pc }

theorem word_overlapping {i : Nat} (hi : i + 1 < overlappingProgram.size) :
    (Memory.image overlappingProgram).word (0x200 + i)
      = .ok (.ofBytes overlappingProgram[i] overlappingProgram[i + 1]) :=
  Memory.word_image (by decide) hi

/-- Memory behind the first store. -/
def digitsStored : Memory := (Memory.image overlappingProgram).put 0 [1, 2, 3] (by decide)

/-- Memory behind both stores. -/
def bothStored : Memory := digitsStored.put 0 [123] (by decide)

theorem word_digitsStored : digitsStored.word 0x204 = .ok 0xF055 := by
  have hsame : digitsStored.word 0x204 = (Memory.image overlappingProgram).word 0x204 :=
    Memory.word_put (by decide) (.inr (by decide))
  rw [hsame]
  exact word_overlapping (i := 4) (by decide)

theorem step_loadByte :
    (fresh (.image overlappingProgram) (.ofSeed 0)).performed?
        = some { operation := .loadByte, immediate := 0x7B } ∧
      (fresh (.image overlappingProgram) (.ofSeed 0)).step.machine
        = inOverlapping (.image overlappingProgram) 0x202 :=
  performed?_of_perform rfl (word_overlapping (i := 0) (by decide)) (by decide) rfl

theorem step_storeDecimal :
    (inOverlapping (.image overlappingProgram) 0x202).performed?
        = some { operation := .storeDecimal } ∧
      (inOverlapping (.image overlappingProgram) 0x202).step.machine
        = inOverlapping digitsStored 0x204 :=
  performed?_of_perform rfl (word_overlapping (i := 2) (by decide)) (by decide) rfl

theorem step_storeRegisters :
    (inOverlapping digitsStored 0x204).performed? = some { operation := .storeRegisters } ∧
      (inOverlapping digitsStored 0x204).step.machine = inOverlapping bothStored 0x206 :=
  performed?_of_perform rfl word_digitsStored (by decide) rfl

/-- What was done to the machine until both stores were made. -/
def overlappingPast : List Deed :=
  [⟨inOverlapping digitsStored 0x204, .step⟩,
    ⟨inOverlapping (.image overlappingProgram) 0x202, .step⟩,
    ⟨fresh (.image overlappingProgram) (.ofSeed 0), .step⟩,
    ⟨powerOn (.ofSeed 0), .load overlappingProgram⟩]

theorem chronicle_overlappingPast : (inOverlapping bothStored 0x206).Chronicle overlappingPast := by
  have hload : (powerOn (.ofSeed 0)).act (.load overlappingProgram)
      = fresh (.image overlappingProgram) (.ofSeed 0) := act_load_of_le _ (by decide)
  have hfirst := (Chronicle.powerOn (.ofSeed 0)).act (.load overlappingProgram)
  rw [hload] at hfirst
  have hsecond := hfirst.act .step
  rw [act, step_loadByte.2] at hsecond
  have hthird := hsecond.act .step
  rw [act, step_storeDecimal.2] at hthird
  have hfourth := hthird.act .step
  rwa [act, step_storeRegisters.2] at hfourth

theorem stores_digits :
    (Deed.mk (inOverlapping (.image overlappingProgram) 0x202) .step).Stores [1, 2, 3] :=
  .digits step_storeDecimal.1 rfl (by decide) (by decide) (by decide) rfl

theorem stores_register : (Deed.mk (inOverlapping digitsStored 0x204) .step).Stores [123] :=
  .registers step_storeRegisters.1 rfl rfl (by decide)

theorem not_covers_loadByte (a : Nat) :
    ¬(Deed.mk (fresh (.image overlappingProgram) (.ofSeed 0)) .step).Covers a := by
  apply Deed.not_covers_of_performed
  · exact step_loadByte.1
  · nofun
  · nofun

theorem not_covers_overlappingPast {a : Nat} (ha : 3 ≤ a) :
    ∀ d ∈ sinceLoad overlappingPast, ¬d.Covers a := by
  intro d hd hcovers
  simp only [show sinceLoad overlappingPast = [_, _, _] from rfl, List.mem_cons, List.not_mem_nil,
    or_false] at hd
  rcases hd with rfl | rfl | rfl
  · have hlt := ((stores_register.covers_iff a).mp hcovers).2
    exact absurd (Nat.lt_of_lt_of_le hlt (by decide)) (Nat.not_lt.mpr ha)
  · have hlt := ((stores_digits.covers_iff a).mp hcovers).2
    exact absurd (Nat.lt_of_lt_of_le hlt (by decide)) (Nat.not_lt.mpr ha)
  · exact absurd hcovers (not_covers_loadByte a)

/-- The first digit is lost under V0, the second one stays, and no glyph is touched. -/
theorem memory_last_writer_overlapping :
    (inOverlapping bothStored 0x206).Chronicle overlappingPast ∧
      bothStored.bytes[0]? = some 123 ∧ bothStored.bytes[1]? = some 2 ∧
      bothStored.bytes[0x100]? = some 0xF0 := by
  have hlast (a : Nat) (ha : a < 4096) := (memory_last_writer chronicle_overlappingPast).1 a ha
  have hbehind : ¬(Deed.mk (inOverlapping digitsStored 0x204) .step).Covers 1 :=
    mt (stores_register.covers_iff 1).mp (by decide)
  refine ⟨chronicle_overlappingPast, ?_, ?_, ?_⟩
  · have hwrites := (hlast 0 (by decide)).stored [] _ _ rfl (by simp)
      ((stores_register.covers_iff 0).mpr (by decide))
    exact ((stores_register.writes_iff _ _).mp hwrites).2.symm
  · have hwrites := (hlast 1 (by decide)).stored [_] _ _ rfl (by simpa using hbehind)
      ((stores_digits.covers_iff 1).mpr (by decide))
    exact ((stores_digits.writes_iff _ _).mp hwrites).2.symm
  · have hglyph : (Memory.image overlappingProgram).bytes[0x100]? = some 0xF0 := by
      rw [Memory.image, Vector.getElem?_ofFn]
      rfl
    rw [← hglyph]
    exact ((hlast 0x100 (by decide)).initial (not_covers_overlappingPast (by decide))).symm

end Machine

end ChipEight
