import ChipEight.Proofs.Machine.Arithmetic
import ChipEight.Proofs.Machine.Checks
import ChipEight.Proofs.Machine.Footprint
import ChipEight.Proofs.Machine.LastWriter

/-!
# What an instruction names

Apart from the program counter, an instruction changes nothing but what it names. Memory is taken
apart into bytes here, the registers are looked at one by one, and of the screen the picture and the
flag count as two. Each operation names some of these places, most of them one or two and some of
them none, and all other places are left alone. The host has places of its own, and reaches no
others as long as it loads nothing.

So a place keeps what is in it until an instruction is performed that names it. This holds of a
whole history, however the program gets about and whatever it writes over.

## Main definitions

- `Machine.Place`, `Machine.SameAt`: the places of the state
- `Machine.Names`: which places an operation may change
- `Machine.Place.isHosted`: which places a host changes without a load

## Main statements

- `Machine.perform_sameAt`: an instruction leaves alone what it does not name
- `Machine.eq_of_sameAt`: there is nothing in a machine but its places and the program counter
- `Machine.acts_sameAt`: a place that no instruction names stays the same over a whole history
- `Machine.step_changes_only_named`: what a successful step of a machine that runs leaves alone
-/

namespace ChipEight

/-! ## Bytes of memory -/

namespace Memory

theorem byteAt_of_le (m : Memory) {a : Nat} (h : 4096 ≤ a) : m.byteAt a = 0 := by
  rw [byteAt, Vector.getElem?_eq_none h, Option.getD_none]

/-- Memories with the same bytes are the same. -/
theorem eq_of_byteAt {m n : Memory} (h : ∀ a, m.byteAt a = n.byteAt a) : m = n := by
  refine congrArg Memory.mk (Vector.ext fun a ha => ?_)
  have hbyte := h a
  rwa [byteAt, byteAt, Vector.getElem?_eq_getElem ha, Vector.getElem?_eq_getElem ha] at hbyte

/-- The bytes of a block that was written are those of the block, and all others are as before. -/
theorem byteAt_write {m n : Memory} {start : Nat} {block : List UInt8}
    (h : m.write start block = .ok n) (a : Nat) :
    n.byteAt a = if start ≤ a then block[a - start]?.getD (m.byteAt a) else m.byteAt a := by
  obtain ⟨hfits, rfl⟩ := exists_put_of_write h
  rcases Nat.lt_or_ge a 4096 with ha | ha
  · rw [byteAt, byteAt, Vector.getElem?_eq_getElem ha, Vector.getElem?_eq_getElem ha,
      Option.getD_some, Option.getD_some, getElem_put m start block hfits a ha]
    by_cases hle : start ≤ a
    · by_cases hlt : a - start < block.length
      · rw [dif_pos ⟨hle, hlt⟩, if_pos hle, List.getElem?_eq_getElem hlt, Option.getD_some]
      · rw [dif_neg fun hin => hlt hin.2, if_pos hle, List.getElem?_eq_none (Nat.le_of_not_lt hlt),
          Option.getD_none]
    · rw [dif_neg fun hin => hle hin.1, if_neg hle]
  · -- Behind the end of memory there is nothing, before and after.
    have hnone : block[a - start]? = none := List.getElem?_eq_none (by omega)
    rw [byteAt_of_le _ ha, byteAt_of_le _ ha, hnone, Option.getD_none, ite_self]

theorem byteAt_write_of_outside {m n : Memory} {start : Nat} {block : List UInt8}
    (h : m.write start block = .ok n) {a : Nat} (ha : ¬(start ≤ a ∧ a < start + block.length)) :
    n.byteAt a = m.byteAt a := by
  rw [byteAt_write h]
  split
  · rw [List.getElem?_eq_none (by omega), Option.getD_none]
  · rfl

/-- A block that was read holds the bytes of memory. -/
theorem getElem?_read {m : Memory} {start len : Nat} {block : List UInt8}
    (h : m.read start len = .ok block) (k : Nat) :
    block[k]? = if k < len then some (m.byteAt (start + k)) else none := by
  unfold read at h
  split at h
  · rename_i hfits
    cases h
    rw [List.getElem?_ofFn]
    split
    · rename_i hk
      have hin : start + k < 4096 := by omega
      rw [byteAt, Vector.getElem?_eq_getElem hin, Option.getD_some]
    · rfl
  · cases h

end Memory

namespace Machine

/-! ## Places -/

/-- A place of the state, apart from the program counter. -/
inductive Place where
  | byte (address : Nat)
  | picture
  | screenFlag
  | index
  | register (r : Nibble)
  | stack
  | delay
  | sound
  | halted
  | pendingKey
  | keypad
  | random
  deriving DecidableEq, Repr

/-- The part of the state that a place is in. -/
def Place.part : Place → Part
  | .byte _ => .memory
  | .picture | .screenFlag => .screen
  | .index => .index
  | .register _ => .registers
  | .stack => .stack
  | .delay => .delay
  | .sound => .sound
  | .halted => .halted
  | .pendingKey => .pendingKey
  | .keypad => .keypad
  | .random => .random

/-- Whether two machines have the same in a place. -/
def SameAt (m n : Machine) : Place → Prop
  | .byte a => m.memory.byteAt a = n.memory.byteAt a
  | .picture => m.screen.bytes = n.screen.bytes
  | .screenFlag => m.screen.dirty = n.screen.dirty
  | .index => m.index = n.index
  | .register r => m.register r = n.register r
  | .stack => m.stack = n.stack
  | .delay => m.delay = n.delay
  | .sound => m.sound = n.sound
  | .halted => m.halted = n.halted
  | .pendingKey => m.pendingKey = n.pendingKey
  | .keypad => m.keypad = n.keypad
  | .random => m.random = n.random

/-- The places that an operation names with its operands, on the machine before it. -/
def Names (m : Machine) (o : Operands) : Operation → Place → Prop
  -- Digits and registers are stored where the index register points.
  | .storeDecimal, .byte a => m.index.toNat ≤ a ∧ a ≤ m.index.toNat + 2
  | .storeRegisters, .byte a => m.index.toNat ≤ a ∧ a ≤ m.index.toNat + o.x.val
  | .clearScreen, .picture | .clearScreen, .screenFlag => True
  | .draw, .picture | .draw, .screenFlag => True
  | .random, .random => True
  | .writeDelay, .delay => True
  | .writeSound, .sound => True
  | .call, .stack | .ret, .stack => True
  | .jump, .halted => o.address = m.pc
  | .awaitKey, .pendingKey => True
  | .loadIndex, .index | .addIndex, .index | .pointGlyph, .index => True
  | .loadByte, .register r | .addByte, .register r | .random, .register r
  | .readDelay, .register r => r = o.x
  | .arithmetic f, .register r =>
    r = o.x ∨ r = 0xF ∧ f ∈ [.add, .subtract, .shiftRight, .subtractReversed, .shiftLeft]
  -- A key wait writes its register when it is over.
  | .awaitKey, .register r =>
    r = o.x ∧ ∃ key, m.pendingKey = some key ∧ m.keypad.isDown key = false
  | .loadRegisters, .register r => r ≤ o.x
  | .draw, .register r => r = 0xF
  | _, _ => False

variable {m n k : Machine} {p : Place}

theorem SameAt.refl (m : Machine) (p : Place) : m.SameAt m p := by
  cases p <;> rfl

theorem SameAt.trans (h : m.SameAt n p) (h' : n.SameAt k p) : m.SameAt k p := by
  cases p <;> exact Eq.trans h h'

theorem sameAt_of_agrees (h : m.Agrees n p.part) : m.SameAt n p := by
  cases p with
  | byte a => exact congrArg (Memory.byteAt · a) h
  | picture => exact congrArg Screen.bytes h
  | screenFlag => exact congrArg Screen.dirty h
  | register r => exact congrArg (fun registers : Vector UInt8 16 => registers[r]) h
  | _ => exact h

/-- There is nothing in a machine but its places and the program counter. -/
theorem eq_of_sameAt (h : ∀ p, n.SameAt m p) : n = { m with pc := n.pc } := by
  apply ext_parts
  intro part
  cases part with
  | memory => exact Memory.eq_of_byteAt fun a => h (.byte a)
  | screen =>
    have hpicture : n.screen.bytes = m.screen.bytes := h .picture
    have hflag : n.screen.dirty = m.screen.dirty := h .screenFlag
    change n.screen = m.screen
    cases hn : n.screen
    cases hm : m.screen
    rw [hn, hm] at hpicture hflag
    congr
  | pc => rfl
  | index => exact h .index
  | registers => exact Vector.ext fun r hr => h (.register ⟨r, hr⟩)
  | stack => exact h .stack
  | delay => exact h .delay
  | sound => exact h .sound
  | halted => exact h .halted
  | pendingKey => exact h .pendingKey
  | keypad => exact h .keypad
  | random => exact h .random

/-! ## Instructions -/

section Instructions

variable (m : Machine) {r : Nibble} {o : Operands}

theorem byteAt_storeBlock (block : List UInt8) {a : Nat}
    (h : ¬(m.index.toNat ≤ a ∧ a < m.index.toNat + block.length)) :
    (m.storeBlock block).machine.memory.byteAt a = m.memory.byteAt a := by
  unfold storeBlock
  split
  · rfl
  · rename_i hwrite
    exact Memory.byteAt_write_of_outside hwrite h

/-- A byte of memory is changed by what names it. -/
theorem byteAt_perform (i : Instruction) {a : Nat}
    (h : ¬m.Names i.toOperands i.operation (.byte a)) :
    (m.perform i).machine.memory.byteAt a = m.memory.byteAt a := by
  obtain ⟨o, op⟩ := i
  cases op with
  | storeDecimal =>
    exact m.byteAt_storeBlock _ fun hin => h ⟨hin.1, Nat.le_of_lt_succ hin.2⟩
  | storeRegisters =>
    have hlength : (m.registers.toList.take (o.x.val + 1)).length = o.x.val + 1 := by
      rw [List.length_take, Vector.length_toList, Nat.min_eq_left o.x.isLt]
    refine m.byteAt_storeBlock _ fun hin => h ⟨hin.1, ?_⟩
    rw [hlength] at hin
    exact Nat.le_of_lt_succ hin.2
  | _ =>
    exact sameAt_of_agrees (p := .byte a)
      (m.perform_agrees (p := .memory) (by decide) _ (by simp [targets]))

theorem register_combine {f : Arithmetic} (h : ¬m.Names o (.arithmetic f) (.register r)) :
    (m.combine f o.x o.y).register r = m.register r := by
  obtain ⟨hx, hflag⟩ := not_or.mp h
  -- As numbers the registers after it are known.
  apply UInt8.toNat_inj.mp
  change (m.combine f o.x o.y).numbers r = m.numbers r
  rw [numbers_combine]
  by_cases hr : r = 0xF
  · have hnone : f.carry? (m.numbers o.x) (m.numbers o.y) = none := by
      have hf := fun hmem => hflag ⟨hr, hmem⟩
      cases f <;> first | rfl | simp at hf
    rw [Arithmetic.assign_of_none hnone, Function.update_of_ne hx]
  · exact Arithmetic.assign_of_ne hx hr

/-- Registers are loaded from memory up to Vx. -/
theorem register_loadBlock {x : Nibble} {progress : Progress}
    (h : (m.loadBlock x).verdict = .ok progress) (r : Nibble) :
    (m.loadBlock x).machine.register r
      = if r ≤ x then m.memory.byteAt (m.index.toNat + r.val) else m.register r := by
  unfold loadBlock at h ⊢
  split at h
  · cases h
  · rename_i block hread
    -- The registers behind the block fall back on what they hold.
    have hregister : (Vector.ofFn fun q : Nibble => block[q.val]?.getD (m.register q))[r]
        = block[r.val]?.getD (m.register r) := Vector.getElem_ofFn r.isLt
    refine hregister.trans ?_
    rw [Memory.getElem?_read hread]
    by_cases hr : r ≤ x
    · rw [if_pos hr, if_pos (Nat.lt_succ_of_le hr), Option.getD_some]
    · rw [if_neg hr, if_neg fun hlt => hr (Nat.le_of_lt_succ hlt), Option.getD_none]

theorem register_drawSprite (hr : r ≠ 0xF) :
    (m.drawSprite o).machine.register r = m.register r := by
  unfold drawSprite
  split
  · rfl
  · exact register_setRegister_of_ne _ _ hr

theorem register_awaitKey (h : ¬m.Names o .awaitKey (.register r)) :
    (m.awaitKey o.x).machine.register r = m.register r := by
  cases hkey : m.pendingKey with
  | none => rw [awaitKey_of_none o.x hkey]; rfl
  | some key =>
    cases hdown : m.keypad.isDown key with
    | true => rw [awaitKey_of_down o.x hkey hdown]
    | false =>
      have hr : r ≠ o.x := fun hr => h ⟨hr, key, hkey, hdown⟩
      rw [awaitKey_of_up o.x hkey hdown]
      exact register_setRegister_of_ne _ _ hr

/-- A register is changed by what names it. -/
theorem register_perform (i : Instruction) {progress : Progress}
    (hok : (m.perform i).verdict = .ok progress)
    (h : ¬m.Names i.toOperands i.operation (.register r)) :
    (m.perform i).machine.register r = m.register r := by
  obtain ⟨o, op⟩ := i
  cases op with
  | loadByte | addByte | readDelay | random => exact register_setRegister_of_ne _ _ h
  | arithmetic f => exact m.register_combine h
  | loadRegisters => exact (m.register_loadBlock hok r).trans (if_neg h)
  | draw => exact m.register_drawSprite h
  | awaitKey => exact m.register_awaitKey h
  | _ =>
    exact sameAt_of_agrees (p := .register r)
      (m.perform_agrees (p := .registers) (by decide) _ (by simp [targets]))

/-- An instruction that succeeds leaves alone what it does not name. -/
theorem perform_sameAt (i : Instruction) {progress : Progress} {p : Place}
    (hok : (m.perform i).verdict = .ok progress) (h : ¬m.Names i.toOperands i.operation p) :
    (m.perform i).machine.SameAt m p := by
  cases p with
  | byte a => exact m.byteAt_perform i h
  | register r => exact m.register_perform i hok h
  | halted =>
    apply m.perform_halted
    rintro ⟨hjump, hself⟩
    rw [hjump] at h
    exact h hself.symm
  | _ =>
    -- Of the other places an operation names all in a part or none.
    apply sameAt_of_agrees
    apply m.perform_agrees (by decide)
    revert h
    cases i.operation <;> simp [Names, targets, Place.part]

end Instructions

/-! ## Steps and histories -/

/-- A step leaves alone what the instruction that it performs does not name. -/
theorem step_sameAt (h : ∀ i, m.performed? = some i → ¬m.Names i.toOperands i.operation p) :
    m.step.machine.SameAt m p := by
  cases m.stepCase with
  | halted _ hstep =>
    rw [hstep]
    exact .refl m p
  | failed _ hsame =>
    rw [hsame]
    exact .refl m p
  | performed hrun hword hdecode hperform _ hmachine =>
    rw [hmachine]
    exact m.perform_sameAt _ hperform (h _ (performed?_of_perform hrun hword hdecode hperform).1)

/-- A step that performs an instruction leaves alone what this does not name. -/
theorem step_sameAt_of_performed? {i : Instruction} (hi : m.performed? = some i)
    (h : ¬m.Names i.toOperands i.operation p) : m.step.machine.SameAt m p := by
  apply step_sameAt
  intro j hj
  rwa [Option.some.inj (hj.symm.trans hi)]

/-- Whether a host reaches a place without loading a program. -/
def Place.isHosted : Place → Bool
  | .screenFlag | .delay | .sound | .keypad => true
  | _ => false

theorem input_sameAt (m : Machine) {a : Action} (ha : a.isInput = true)
    (hp : p.isHosted = false) : (m.act a).SameAt m p := by
  cases a with
  | load program => cases ha
  | step => cases ha
  | setKey key down => cases p <;> first | rfl | cases hp
  | tick => cases p <;> first | rfl | cases hp
  | acknowledgeScreen => cases p <;> first | rfl | cases hp

/-- A place out of the host's reach stays the same over a history without loads, as long as no
instruction is performed that names it. -/
theorem acts_sameAt {actions : List Action} (hactions : ∀ a ∈ actions, a.isLoad = false)
    (hp : p.isHosted = false)
    (h : ∀ s ∈ m.stepsOf actions, ∀ i, s.performed? = some i →
      ¬s.Names i.toOperands i.operation p) :
    (m.acts actions).SameAt m p := by
  -- By induction on the history. A step is looked at where it is taken, and input is passed over.
  induction actions generalizing m with
  | nil => exact .refl m p
  | cons a actions ih =>
    obtain ⟨ha, hrest⟩ := List.forall_mem_cons.mp hactions
    rcases Action.eq_step_or_isInput ha with rfl | hinput
    · obtain ⟨hnow, hlater⟩ := List.forall_mem_cons.mp h
      exact (ih hrest hlater).trans (step_sameAt hnow)
    · rw [m.stepsOf_cons_input hinput] at h
      exact (ih hrest h).trans (m.input_sameAt hinput hp)

/-- **Every instruction changes only what it names.** A successful step of a machine that runs
changes the program counter and the places that its instruction names, and nothing else. What looks
like a call of a host routine changes the program counter only. -/
theorem step_changes_only_named {progress : Progress} (hrun : m.halted = false)
    (hok : m.step.verdict = .ok progress) :
    ∃ i, m.instruction? = some i ∧
      (∀ p, ¬m.Names i.toOperands i.operation p → m.step.machine.SameAt m p) ∧
      (i.operation = .hostRoutine →
        m.step.machine = { m with pc := m.step.machine.pc }) := by
  obtain ⟨opcode, i, hword, hdecode, hperform, -⟩ := exists_perform_of_ok hrun hok
  obtain ⟨hperformed, -⟩ := performed?_of_perform hrun hword hdecode hperform
  have hsame (p : Place) (hp : ¬m.Names i.toOperands i.operation p) : m.step.machine.SameAt m p :=
    step_sameAt_of_performed? hperformed hp
  refine ⟨i, instruction?_of_decode hword hdecode, hsame, fun hop => ?_⟩
  apply eq_of_sameAt
  intro p
  apply hsame p
  rw [hop]
  cases p <;> exact id

/-- A machine that is to store V0 and V1 in the last two bytes of memory. -/
def atLastBytes : Machine :=
  { ((fresh (.image #[0xF1, 0x55]) (.ofSeed 0)).setRegister 0 7).setRegister 1 9 with
    index := 0xFFE }

theorem instruction?_atLastBytes :
    atLastBytes.instruction? = some { x := 1, operation := .storeRegisters } := by
  have hword : atLastBytes.memory.word atLastBytes.pc.toNat = .ok (.ofBytes 0xF1 0x55) :=
    Memory.word_image (i := 0) (by decide) (by decide)
  exact instruction?_of_decode hword (by decide)

/-- The byte before these two and the registers stay as they are. -/
theorem step_changes_only_named_atLastBytes :
    atLastBytes.halted = false ∧ atLastBytes.step.verdict = .ok .continued ∧
      atLastBytes.step.machine.SameAt atLastBytes (.byte 0xFFD) ∧
      ∀ r, atLastBytes.step.machine.SameAt atLastBytes (.register r) := by
  have hverdict : atLastBytes.step.verdict = .ok .continued := by
    obtain ⟨opcode, hword, hdecode⟩ := exists_decode_of_instruction? instruction?_atLastBytes
    rw [step_of_decode rfl hword hdecode, perform_verdict]
    rfl
  obtain ⟨i, hi, hsame, -⟩ := step_changes_only_named rfl hverdict
  obtain rfl := Option.some.inj (hi.symm.trans instruction?_atLastBytes)
  refine ⟨rfl, hverdict, hsame _ ?_, fun r => hsame _ id⟩
  rintro ⟨hfrom, -⟩
  exact absurd hfrom (by decide)

end Machine

end ChipEight
