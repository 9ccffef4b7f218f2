import ChipEight.Proofs.Session.Correspondence

/-!
# Random bytes

A machine draws a random byte for each instruction that asks for one and for nothing else: not for
an instruction that fails, not while it waits for a key, and not when a program is loaded. A byte is
drawn also if the mask of the instruction lets nothing of it pass. So the `k`-th of these
instructions gets the `k`-th byte of the source, whatever the host and the program did in between,
and a seed fixes all of them.

Bytes reach the rest of the machine only through masks. As long as each of these is zero, two
machines with different sources cannot be told apart, and so can their sessions not.

## Main definitions

- `RandomSource.stream`: the bytes of a seed
- `Machine.Deed.draws`: deeds that draw a byte
- `Machine.reseed`, `Session.reseed`: the same machine with another source
- `Machine.Deed.Blank`: deeds that let nothing of a drawn byte pass

## Main statements

- `Machine.Leads.random_eq`: how many bytes are drawn
- `Session.moves_reseed`: the source does not show behind zero masks
- `Session.one_byte_per_draw`: which byte each instruction gets
-/

namespace ChipEight

/-- Byte `k` of the source of a seed, counted from zero. -/
def RandomSource.stream (seed : UInt64) (k : Nat) : UInt8 := byte (ofSeed seed).key k

namespace Machine

/-! ## Drawing -/

theorem perform_of_random (m : Machine) {i : Instruction} (hi : i.operation = .random) :
    m.perform i = .proceed ({ m with random := m.random.next.2 }.setRegister i.x
      (m.random.next.1 &&& i.byte)).advance := by
  simp only [perform, hi]

/-- One byte is drawn, or none. -/
theorem random_perform (m : Machine) (i : Instruction) :
    (m.perform i).machine.random
      = { m.random with drawn := m.random.drawn + (i.operation == .random).toNat } := by
  by_cases hi : i.operation = .random
  · rw [perform_of_random m hi, hi]
    rfl
  · -- The source is not among the parts that any other instruction may change.
    have hkept : (m.perform i).machine.random = m.random := by
      apply m.perform_agrees (p := .random) (by decide)
      cases hop : i.operation <;> simp [targets]
      exact hi hop
    rw [hkept, beq_eq_false_iff_ne.mpr hi]
    rfl

namespace Deed

variable {d : Deed} {i : Instruction}

/-- Whether an instruction that asks for a random byte was performed. -/
def draws (d : Deed) : Bool := d.performed?.any fun i => i.operation == .random

/-- If a byte is drawn, the mask of the instruction lets nothing of it pass. -/
def Blank (d : Deed) : Prop :=
  ∀ i, d.performed? = some i → i.operation = .random → i.byte = 0

theorem random_after (d : Deed) :
    d.after.random = { d.before.random with drawn := d.before.random.drawn + d.draws.toNat } := by
  cases d.cases with
  | @performed i _ _ hperformed _ _ _ _ hafter =>
    rw [hafter, random_perform, draws, hperformed, Option.any_some]
  | loaded _ hperformed _ _ hafter =>
    rw [hafter, draws, hperformed]
    rfl
  | input _ hperformed halike =>
    rw [halike.random, draws, hperformed]
    rfl

/-- The register of the instruction gets the next byte of the source, as far as the mask lets it
pass. -/
theorem register_after (hi : d.performed? = some i) (hop : i.operation = .random) :
    d.after.register i.x
      = RandomSource.byte d.before.random.key d.before.random.drawn &&& i.byte := by
  cases d.cases with
  | @performed j _ _ hperformed _ _ _ _ hafter =>
    obtain rfl := Option.some.inj (hi.symm.trans hperformed)
    rw [hafter, perform_of_random _ hop]
    exact register_setRegister _ _ _
  | loaded _ hperformed => cases hi.symm.trans hperformed
  | input _ hperformed => cases hi.symm.trans hperformed

end Deed

namespace Leads

variable {m n : Machine} {past : List Deed}

/-- As many bytes are drawn as instructions that ask for one are performed. -/
theorem random_eq (h : m.Leads past n) :
    n.random = { m.random with drawn := m.random.drawn + past.countP Deed.draws } := by
  induction h with
  | nothing => rfl
  | @deed past d _ ih =>
    rw [d.random_after, ih, List.countP_cons, Nat.add_assoc]
    cases d.draws <;> rfl

theorem before {later earlier : List Deed} {d : Deed} (h : m.Leads past n)
    (hpast : past = later ++ d :: earlier) : m.Leads earlier d.before := by
  induction h generalizing later with
  | nothing => cases later <;> cases hpast
  | deed e hearlier ih =>
    cases later with
    | nil =>
      obtain ⟨rfl, rfl⟩ := List.cons.inj hpast
      exact hearlier
    | cons _ later => exact ih (List.cons.inj hpast).2

end Leads

/-! ## Another source -/

/-- The same machine with another random source. -/
def reseed (m : Machine) (random : RandomSource) : Machine := { m with random := random }

/-- Two machines are the same but for the random source. -/
def Reseeded (m n : Machine) : Prop := ∃ random, n = m.reseed random

theorem confined_reseed (random : RandomSource) : Confined [.random] (·.reseed random) where
  keeps m p hp := by cases p <;> first | rfl | simp at hp
  determined m n _ := List.forall_mem_singleton.mpr rfl

section Reseed

variable (m : Machine) (random : RandomSource)

/-- An instruction that lets nothing of a byte pass does the same with any source. -/
theorem perform_reseed {i : Instruction} (hblank : i.operation = .random → i.byte = 0) :
    Step.Match Reseeded (m.perform i) ((m.reseed random).perform i) := by
  by_cases hi : i.operation = .random
  · rw [perform_of_random _ hi, perform_of_random _ hi, hblank hi, UInt8.and_zero, UInt8.and_zero]
    exact ⟨rfl, rfl, random.next.2, rfl⟩
  · -- The source is not in the footprint of any other instruction.
    have hfree : ∀ p ∈ footprint i.operation, p ∉ [Part.random] := by
      obtain ⟨o, op⟩ := i
      cases op with
      | random => exact absurd rfl hi
      | skip condition => cases condition <;> simp [footprint, sources, targets]
      | _ => simp [footprint, sources, targets]
    rw [perform_of_confined (confined_reseed random) m hfree]
    exact ⟨rfl, rfl, random, rfl⟩

/-- So does a deed that performs such an instruction, or none. -/
theorem match_reseed (a : Action) (hblank : Deed.Blank ⟨m, a⟩) :
    Deed.Match Reseeded ⟨m, a⟩ (m.reseed random) := by
  cases a with
  | load program =>
    rcases Nat.lt_or_ge 3584 program.size with hlarge | hfits
    · refine ⟨?_, random, ?_⟩
      · simp only [answer, load_of_lt _ hlarge]
      · rw [Deed.after, act_load_of_lt _ hlarge, act_load_of_lt _ hlarge]
    · refine ⟨?_, random, ?_⟩
      · simp only [answer, load_of_le _ hfits]
      · rw [Deed.after, act_load_of_le _ hfits, act_load_of_le _ hfits]
        rfl
  | step =>
    have hsame : m.Reseeded (m.reseed random) := ⟨random, rfl⟩
    refine (step_match (m := m) (n := m.reseed random) rfl rfl rfl hsame ?_).deed
    intro opcode i hrun hword hdecode
    apply m.perform_reseed random
    intro hi
    have hok : (m.perform i).verdict = .ok .continued := by
      rw [m.perform_of_random hi]
      rfl
    exact hblank i (performed?_of_perform hrun hword hdecode hok).1 hi
  | setKey key down => exact ⟨rfl, random, rfl⟩
  | tick => exact ⟨rfl, random, rfl⟩
  | acknowledgeScreen => exact ⟨rfl, random, rfl⟩

end Reseed

end Machine

namespace Session

open Machine (Deed)

/-- The same session with another random source in its machine. -/
def reseed (s : Session) (random : RandomSource) : Session :=
  { s with machine := s.machine.reseed random }

/-- As long as the masks let nothing of a byte pass, a session does not show which source its
machine has. -/
theorem moves_reseed (s : Session) (random : RandomSource) (list : List Move)
    (hblank : ∀ d ∈ s.deedsOf list, d.Blank) :
    ∃ random', (s.reseed random).moves list = (s.moves list).reseed random' := by
  have hdeed : ∀ d ∈ s.deedsOf list, ∀ n, d.before.Reseeded n → d.Match Machine.Reseeded n := by
    rintro d hd n ⟨random, rfl⟩
    exact d.before.match_reseed random d.action (hblank d hd)
  have hlook : ∀ {m n : Machine}, m.Reseeded n → m.pc = n.pc ∧ m.halted = n.halted := by
    rintro m n ⟨random, rfl⟩
    exact ⟨rfl, rfl⟩
  have hstart : s.machine.Reseeded (s.machine.reseed random) := ⟨random, rfl⟩
  obtain ⟨-, n', hmoves, random', rfl⟩ := moves_correspond hlook hdeed hstart
  exact ⟨random', hmoves⟩

/-! ## One byte for each instruction -/

/-- Whatever a host does with a machine that has a seed, the machine has drawn as many bytes as
instructions that ask for one were performed. Each of these put into its register the byte of the
seed that its place among them says, as far as its mask let it pass. If no mask let anything pass,
with another seed all would have been the same but for the random source. -/
theorem one_byte_per_draw (seed : UInt64) (list : List Move) :
    let s := powerOn (.ofSeed seed)
    let past := s.deedsOf list
    (s.moves list).machine.random
        = { key := (RandomSource.ofSeed seed).key, drawn := past.countP Deed.draws } ∧
      (∀ later d earlier i, past = later ++ d :: earlier → d.performed? = some i →
        i.operation = .random →
          d.after.register i.x
            = RandomSource.stream seed (earlier.countP Deed.draws) &&& i.byte) ∧
      ((∀ d ∈ past, d.Blank) → ∀ seed', ∃ random,
        (powerOn (.ofSeed seed')).moves list = (s.moves list).reseed random) := by
  intro s past
  have hleads : s.machine.Leads past (s.moves list).machine := s.leads_deedsOf list
  refine ⟨?_, ?_, ?_⟩
  · rw [hleads.random_eq]
    exact congrArg (RandomSource.mk _) (Nat.zero_add _)
  · intro later d earlier i hpast hi hop
    have hbefore := (hleads.before hpast).random_eq
    rw [Deed.register_after hi hop, hbefore]
    exact congrArg (RandomSource.byte _ · &&& i.byte) (Nat.zero_add _)
  · intro hblank seed'
    exact s.moves_reseed (.ofSeed seed') list hblank

/-- A machine in front of an instruction that draws a byte into V0 through a mask. -/
def atDraw (seed : UInt64) (mask : UInt8) : Machine :=
  .fresh (.image #[0xC0, mask]) (.ofSeed seed)

/-- A host that brings a machine there and steps it. -/
def drawOnce (mask : UInt8) : List Move :=
  [.act (.machine (.load #[0xC0, mask])), .act (.machine .step)]

theorem deedsOf_drawOnce (seed : UInt64) (mask : UInt8) :
    (powerOn (.ofSeed seed)).deedsOf (drawOnce mask)
        = [⟨atDraw seed mask, .step⟩, ⟨.powerOn (.ofSeed seed), .load #[0xC0, mask]⟩] ∧
      ((powerOn (.ofSeed seed)).moves (drawOnce mask)).machine
        = Deed.after ⟨atDraw seed mask, .step⟩ := by
  have hload : (Machine.powerOn (.ofSeed seed)).act (.load #[0xC0, mask]) = atDraw seed mask :=
    Machine.act_load_of_le _ (by simp)
  rw [← hload]
  exact ⟨rfl, rfl⟩

theorem performed?_atDraw {seed : UInt64} {mask : UInt8} {i : Instruction}
    (hdecode : Instruction.decode (.ofBytes 0xC0 mask) = some i) (hi : i.operation = .random) :
    (atDraw seed mask).performed? = some i := by
  have hsize : #[0xC0, mask].size = 2 := rfl
  have hword : (atDraw seed mask).memory.word (atDraw seed mask).pc.toNat
      = .ok (.ofBytes 0xC0 mask) :=
    Memory.word_image (i := 0) (hsize ▸ by decide) (hsize ▸ by decide)
  have hok : ((atDraw seed mask).perform i).verdict = .ok .continued := by
    rw [Machine.perform_of_random _ hi]
    rfl
  exact (Machine.performed?_of_perform rfl hword hdecode hok).1

/-- The first byte of a seed goes through the mask into V0. Behind a mask of zero the seed does not
matter. -/
theorem one_byte_per_draw_drawOnce :
    ((powerOn (.ofSeed 7)).moves (drawOnce 0x0F)).machine.random.drawn = 1 ∧
      ((powerOn (.ofSeed 7)).moves (drawOnce 0x0F)).machine.register 0
        = RandomSource.stream 7 0 &&& 0x0F ∧
      ∃ random, (powerOn (.ofSeed 1)).moves (drawOnce 0)
        = ((powerOn (.ofSeed 0)).moves (drawOnce 0)).reseed random := by
  obtain ⟨i, hdecode, hop, hx, hbyte⟩ : ∃ i, Instruction.decode (.ofBytes 0xC0 0x0F) = some i ∧
      i.operation = .random ∧ i.x = 0 ∧ i.byte = 0x0F :=
    ⟨{ operation := .random, immediate := 0x0F }, by decide, rfl, rfl, by decide⟩
  have hdraws : (atDraw 7 0x0F).performed? = some i := performed?_atDraw hdecode hop
  have hblank : (atDraw 0 0).performed? = some { operation := .random } :=
    performed?_atDraw (by decide) rfl
  obtain ⟨hpast, hmachine⟩ := deedsOf_drawOnce 7 0x0F
  obtain ⟨hrandom, hregister, -⟩ := one_byte_per_draw 7 (drawOnce 0x0F)
  have hdraw : Deed.draws ⟨atDraw 7 0x0F, .step⟩ = true := by
    rw [Deed.draws, Deed.performed?, hdraws, Option.any_some, hop]
    rfl
  have hload : [Deed.mk (.powerOn (.ofSeed 7)) (.load #[0xC0, 0x0F])].countP Deed.draws = 0 :=
    List.countP_cons_of_neg Bool.false_ne_true
  refine ⟨?_, ?_, ?_⟩
  · rw [hrandom, hpast, List.countP_cons_of_pos hdraw, hload]
  · have hvalue := hregister [] _ _ _ hpast hdraws hop
    rw [hload, hx, hbyte] at hvalue
    rw [hmachine]
    exact hvalue
  · apply (one_byte_per_draw 0 (drawOnce 0)).2.2
    rw [(deedsOf_drawOnce 0 0).1]
    intro d hd i hi _
    rcases List.mem_cons.mp hd with rfl | hd
    · rw [Deed.performed?, hblank] at hi
      obtain rfl := Option.some.inj hi
      rfl
    · obtain rfl := List.mem_singleton.mp hd
      cases hi

end Session

end ChipEight
