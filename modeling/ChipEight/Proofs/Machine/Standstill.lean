import ChipEight.Proofs.Encoding
import ChipEight.Proofs.Machine.KeyWait
import ChipEight.Proofs.Reachable

/-!
# Machines that stand still

A machine stands still in two ways: it waits for the release of a key that it remembers, or it has
halted. Both are flags of the machine and not places of the program, so nothing but the program's
course ties them to the instruction before the machine. The tie is an invariant: a machine that
remembers a key has a wait before it, and one that has halted has the jump to its own place before
it and remembers no key.

Only waits remember keys and only such jumps halt, and both leave the program counter where it is.
All other instructions, those that write over the program among them, are performed by machines that
neither remember a key nor have halted: a machine that remembers one has a wait before it, so it is
the wait that it performs.

## Main definitions

- `Machine.Settled`: the invariant

## Main statements

- `Machine.Settled.step`: a step keeps the invariant
- `Machine.Waits.act_cases`: what becomes of a key that is remembered
- `Machine.reachable_standstill`: where reachable machines stand still
-/

namespace ChipEight.Machine

/-! ## The invariant -/

/-- What a machine that stands still has before it: a wait if it remembers a key, and the jump to
its own place if it has halted. -/
structure Settled (m : Machine) : Prop where
  waits : ∀ key, m.pendingKey = some key → ∃ x, m.Waits x
  halts : m.halted = true → m.pendingKey = none ∧ m.memory.word m.pc.toNat = .ok (0x1000 + m.pc)

variable {m : Machine} {x : Nibble}

/-- A machine that runs and remembers no key stands still nowhere. -/
theorem settled_of_running (hrun : m.halted = false) (hpending : m.pendingKey = none) :
    m.Settled where
  waits key hkey := by
    rw [hpending] at hkey
    cases hkey
  halts hhalted := by
    rw [hrun] at hhalted
    cases hhalted

theorem Waits.settled (hm : m.Waits x) : m.Settled where
  waits _ _ := ⟨x, hm⟩
  halts hhalted := by
    rw [hm.running] at hhalted
    cases hhalted

/-- A wait goes on before the same instruction, or is over and remembers nothing. -/
theorem Waits.settled_awaitKey (hm : m.Waits x) : (m.awaitKey x).machine.Settled := by
  cases hkey : m.pendingKey with
  | none =>
    rw [awaitKey_of_none x hkey]
    exact Waits.settled ⟨hm.running, hm.word⟩
  | some key =>
    cases hdown : m.keypad.isDown key with
    | true =>
      rw [awaitKey_of_down x hkey hdown]
      exact hm.settled
    | false =>
      rw [awaitKey_of_up x hkey hdown]
      exact settled_of_running hm.running rfl

/-- A machine that has an instruction before it which is not a wait remembers no key. -/
theorem Settled.pendingKey_eq_none (hm : m.Settled) {opcode : Word} {i : Instruction}
    (hword : m.memory.word m.pc.toNat = .ok opcode) (hdecode : Instruction.decode opcode = some i)
    (hi : i.operation ≠ .awaitKey) : m.pendingKey = none := by
  cases hkey : m.pendingKey with
  | none => rfl
  | some key =>
    obtain ⟨x, hwaits⟩ := hm.waits key hkey
    obtain rfl : opcode = .ofNibbles 0xF x 0x0 0xA :=
      Except.ok.inj (hword.symm.trans hwaits.word)
    rw [decode_awaitKey x] at hdecode
    cases hdecode
    exact absurd rfl hi

/-- A step keeps the invariant, whatever the instruction is. -/
theorem Settled.step (hm : m.Settled) : m.step.machine.Settled := by
  apply step_keeps hm
  intro opcode i progress hrun hword hdecode _
  have hencode : i.encode = opcode := Instruction.encode_of_decode hdecode
  by_cases hwait : i.operation = .awaitKey
  · have hwaits : m.Waits i.x := by
      rw [← hencode, Instruction.encode_awaitKey hwait] at hword
      exact ⟨hrun, hword⟩
    have hperform : m.perform i = m.awaitKey i.x := by
      rw [perform, hwait]
    rw [hperform]
    exact hwaits.settled_awaitKey
  · -- Any other instruction starts without a key, and keeps it so.
    have hpending : m.pendingKey = none := hm.pendingKey_eq_none hword hdecode hwait
    by_cases hself : i.operation = .jump ∧ m.pc = i.address
    · obtain ⟨hjump, hhere⟩ := hself
      have hperform : (m.perform i).machine = { m with halted := true } := by
        simp only [perform, hjump, hhere, if_true]
      -- The machine halts where it is, and the jump stays before it.
      rw [hperform]
      refine ⟨fun key hkey => ?_, fun _ => ⟨hpending, ?_⟩⟩
      · cases hpending.symm.trans hkey
      · rw [← hencode, Instruction.encode_jump hjump, ← hhere] at hword
        exact hword
    · apply settled_of_running
      · rw [m.perform_halted hself, hrun]
      · rw [m.perform_pendingKey hwait, hpending]

theorem settled_fresh (memory : Memory) (random : RandomSource) : (fresh memory random).Settled :=
  settled_of_running rfl rfl

/-- Input touches nothing that the invariant speaks of. -/
theorem Settled.input {a : Action} (ha : a.isInput = true) (hm : m.Settled) :
    (m.act a).Settled := by
  obtain ⟨halike, hsame⟩ := m.act_input ha
  constructor
  · intro key hkey
    rw [hsame] at hkey
    obtain ⟨x, hwaits⟩ := hm.waits key hkey
    exact ⟨x, halike.waits hwaits⟩
  · intro hhalted
    rw [halike.halted] at hhalted
    rw [hsame, halike.memory, halike.pc]
    exact hm.halts hhalted

theorem Settled.act {a : Action} (ha : a.isLoad = false) (hm : m.Settled) : (m.act a).Settled := by
  cases a with
  | load program => cases ha
  | step => exact hm.step
  | _ => exact hm.input rfl

theorem Reachable.settled (hm : m.Reachable) : m.Settled :=
  hm.invariant settled_fresh fun _ _ => Settled.act

/-! ## Where machines stand still -/

/-- A key that is remembered stays so, at the same place of the same program, until it is served
there or a program is loaded. -/
theorem Waits.act_cases (hm : m.Waits x) {key : Nibble} (hkey : m.pendingKey = some key)
    (a : Action) :
    (m.act a).pendingKey = some key ∧ (m.act a).pc = m.pc ∧ (m.act a).memory = m.memory ∨
      (m.act a).pendingKey = none ∧
        (a.isLoad = true ∨ a = .step ∧ m.keypad.isDown key = false ∧ m.act a = m.served x key) := by
  cases a with
  | load program =>
    rcases Nat.lt_or_ge 3584 program.size with hlarge | hfits
    · rw [act_load_of_lt m hlarge]
      exact .inl ⟨hkey, rfl, rfl⟩
    · rw [act_load_of_le m hfits]
      exact .inr ⟨rfl, .inl rfl⟩
  | step =>
    rw [act, hm.step.2]
    cases hdown : m.keypad.isDown key with
    | true =>
      rw [awaitKey_of_down x hkey hdown]
      exact .inl ⟨hkey, rfl, rfl⟩
    | false =>
      rw [awaitKey_of_up x hkey hdown]
      exact .inr ⟨rfl, .inr ⟨rfl, rfl, rfl⟩⟩
  | setKey key' down => exact .inl ⟨hkey, rfl, rfl⟩
  | tick => exact .inl ⟨hkey, rfl, rfl⟩
  | acknowledgeScreen => exact .inl ⟨hkey, rfl, rfl⟩

/-- **Where reachable machines stand still.** A machine that remembers a key has not halted and has
a wait before it. Whatever the host does, the key stays remembered at this place in this program
until this wait gets it or a program is loaded, so no other wait and no other code ever meets it. A
machine that has halted remembers no key and has the jump to its own place before it. -/
theorem reachable_standstill (hm : m.Reachable) :
    (∀ key, m.pendingKey = some key →
      m.halted = false ∧ m.pc.toNat ≤ 0xFFE ∧
        ∃ x, m.memory.word m.pc.toNat = .ok (.ofNibbles 0xF x 0x0 0xA) ∧
          ∀ a : Action,
            (m.act a).pendingKey = some key ∧ (m.act a).pc = m.pc ∧ (m.act a).memory = m.memory ∨
            (m.act a).pendingKey = none ∧
              (a.isLoad = true ∨
                a = .step ∧ m.keypad.isDown key = false ∧ m.act a = m.served x key)) ∧
    (m.halted = true →
      m.pendingKey = none ∧ m.pc.toNat ≤ 0xFFE ∧
        m.memory.word m.pc.toNat = .ok (0x1000 + m.pc)) := by
  constructor
  · intro key hkey
    obtain ⟨x, hwaits⟩ := hm.settled.waits key hkey
    exact ⟨hwaits.running, pc_le_of_word hwaits.word, x, hwaits.word, hwaits.act_cases hkey⟩
  · intro hhalted
    obtain ⟨hpending, hword⟩ := hm.settled.halts hhalted
    exact ⟨hpending, pc_le_of_word hword, hword⟩

/-- A machine that waits for a key and has seen 7 going down. -/
def latched : Machine :=
  (powerOn (.ofSeed 0)).acts [.load #[0xF3, 0x0A], .setKey 7 true, .step]

theorem latched_eq : latched = { atWait.setKey 7 true with pendingKey := some 7 } := by
  have hload : (powerOn (.ofSeed 0)).act (.load #[0xF3, 0x0A]) = atWait :=
    act_load_of_le _ (by decide)
  have hwaits : (atWait.setKey 7 true).Waits 3 := ⟨waits_atWait.running, waits_atWait.word⟩
  have hpending : (atWait.setKey 7 true).pendingKey = none := rfl
  have hfirst : (atWait.setKey 7 true).firstKeyDown? = some 7 := by
    change (List.finRange 16).find? (fun key => ((Vector.replicate 16 false).set 7 true)[key]) = _
    decide
  rw [latched, acts_cons, acts_cons, acts_cons, acts_nil, hload, act, act,
    hwaits.step_of_none hpending, hfirst]

/-- A machine that has halted on the jump to its own place. -/
def stuck : Machine := (powerOn (.ofSeed 0)).acts [.load #[0x12, 0x00], .step]

theorem stuck_eq : stuck = { fresh (.image #[0x12, 0x00]) (.ofSeed 0) with halted := true } := by
  let start := fresh (.image #[0x12, 0x00]) (.ofSeed 0)
  have hload : (powerOn (.ofSeed 0)).act (.load #[0x12, 0x00]) = start :=
    act_load_of_le _ (by decide)
  have hword : start.memory.word start.pc.toNat = .ok (.ofBytes 0x12 0x00) :=
    Memory.word_image (i := 0) (by decide) (by decide)
  rw [stuck, acts_cons, acts_cons, acts_nil, hload, act,
    step_of_decode (i := { operation := .jump, immediate := 0x200 }) rfl hword (by decide)]
  rfl

theorem reachable_standstill_latched :
    (latched.Reachable ∧ latched.pendingKey = some 7 ∧
      ∃ x, latched.memory.word latched.pc.toNat = .ok (.ofNibbles 0xF x 0x0 0xA)) ∧
    stuck.Reachable ∧ stuck.halted = true ∧
      stuck.memory.word stuck.pc.toNat = .ok (0x1000 + stuck.pc) := by
  have hlatched : latched.Reachable := (Reachable.powerOn _).acts _
  have hpending : latched.pendingKey = some 7 := by
    rw [latched_eq]
  have hstuck : stuck.Reachable := (Reachable.powerOn _).acts _
  have hhalted : stuck.halted = true := by
    rw [stuck_eq]
  obtain ⟨-, -, x, hword, -⟩ := (reachable_standstill hlatched).1 7 hpending
  obtain ⟨-, -, hjump⟩ := (reachable_standstill hstuck).2 hhalted
  exact ⟨⟨hlatched, hpending, x, hword⟩, hstuck, hhalted, hjump⟩

end ChipEight.Machine
