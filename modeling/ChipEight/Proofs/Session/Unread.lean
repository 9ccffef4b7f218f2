import ChipEight.Proofs.Machine.CallMatching
import ChipEight.Proofs.Screen.Picture
import ChipEight.Proofs.Session.Correspondence

/-!
# State that nothing reads

Three things in a machine are written by programs and read by none of them. The sound timer is there
for the loudspeaker of the host, and the flag of the screen for its display. The third is a
leftover: a return takes an address off the call stack by counting one less, and leaves the address
in its slot, where a later call will write over it.

Machines that differ in these only are interchangeable. The relation is kept by all that is done to
them, and though live slots turn into dead ones and back, a call writes a slot before it counts. So
a host that does not look at the flag or listen cannot tell them apart, nor can any program. No
return ever goes to an address that another one has left behind.

## Main definitions

- `Machine.unread`: the parts at issue
- `Machine.Interchangeable`: machines that differ in what is not read
- `CallStack.scribble`: a slot is written over

## Main statements

- `Machine.Interchangeable.step`: a step keeps machines interchangeable and tells the same
- `Session.unread_does_not_show`: so does all that a host can do without looking at the flag
-/

namespace ChipEight

/-! ## Stacks with the same live addresses -/

namespace CallStack

variable {s t : CallStack}

theorem depth_eq_of_toList_eq (h : s.toList = t.toList) : s.depth = t.depth := by
  rw [← length_toList, ← length_toList, h]

theorem push_of_toList_eq (h : s.toList = t.toList) (address : Word) :
    (∃ fault, s.push address = .error fault ∧ t.push address = .error fault) ∨
      ∃ s' t', s.push address = .ok s' ∧ t.push address = .ok t' ∧ s'.toList = t'.toList := by
  have hs := s.decides_push address
  have ht := t.decides_push address
  rw [depth_eq_of_toList_eq h] at hs
  split at hs
  · rename_i hroom
    rw [if_pos hroom] at ht
    obtain ⟨s', hs⟩ := hs
    obtain ⟨t', ht⟩ := ht
    exact .inr ⟨s', t', hs, ht, by rw [toList_push hs, toList_push ht, h]⟩
  · rename_i hfull
    rw [if_neg hfull] at ht
    exact .inl ⟨_, hs, ht⟩

theorem pop_of_toList_eq (h : s.toList = t.toList) :
    (∃ fault, s.pop = .error fault ∧ t.pop = .error fault) ∨
      ∃ address s' t', s.pop = .ok (address, s') ∧ t.pop = .ok (address, t') ∧
        s'.toList = t'.toList := by
  have hs := s.decides_pop
  have ht := t.decides_pop
  rw [depth_eq_of_toList_eq h] at hs
  split at hs
  · rename_i hempty
    rw [if_pos hempty] at ht
    exact .inl ⟨_, hs, ht⟩
  · rename_i hlive
    rw [if_neg hlive] at ht
    obtain ⟨⟨address, s'⟩, hs⟩ := hs
    obtain ⟨⟨address', t'⟩, ht⟩ := ht
    -- Both take the last of the same live addresses.
    rw [toList_pop hs, toList_pop ht] at h
    obtain ⟨hrest, hlast⟩ := List.append_inj' h rfl
    obtain rfl := List.head_eq_of_cons_eq hlast
    exact .inr ⟨address, s', t', hs, ht, hrest⟩

/-- The same stack with another address in a slot. -/
def scribble (s : CallStack) (k : Fin 76) (address : Word) : CallStack :=
  { s with slots := s.slots.set k address }

/-- A slot above the depth is not live. -/
theorem toList_scribble {k : Fin 76} (h : s.depth ≤ k.val) (address : Word) :
    (s.scribble k address).toList = s.toList := by
  simp only [toList, scribble, Vector.toList_set]
  exact List.take_set_of_le h

end CallStack

/-! ## Interchangeable machines -/

namespace Machine

/-- The parts that are not read: the sound timer wholly, and the others as far as the picture and
the live addresses leave something over. -/
def unread : List Part := [.screen, .stack, .sound]

/-- Two machines agree on all but the sound timer, the flag of the screen and the slots of the call
stack that are not live. -/
structure Interchangeable (m n : Machine) : Prop where
  shared : ∀ p, p ∉ unread → m.Agrees n p
  picture : m.screen.bytes = n.screen.bytes
  returns : m.stack.toList = n.stack.toList

/-- The same machine with these parts replaced. -/
def withUnread (m : Machine) (screen : Screen) (stack : CallStack) (sound : UInt8) : Machine :=
  { m with screen := screen, stack := stack, sound := sound }

theorem interchangeable_withUnread (m : Machine) {screen screen' : Screen}
    {stack stack' : CallStack} {sound sound' : UInt8} (hpicture : screen.bytes = screen'.bytes)
    (hreturns : stack.toList = stack'.toList) :
    (m.withUnread screen stack sound).Interchangeable (m.withUnread screen' stack' sound') where
  shared p hp := by cases p <;> first | rfl | simp [unread] at hp
  picture := hpicture
  returns := hreturns

namespace Interchangeable

variable {m n : Machine}

theorem refl (m : Machine) : m.Interchangeable m := m.interchangeable_withUnread rfl rfl

theorem exists_eq (h : m.Interchangeable n) : ∃ screen stack sound,
    n = m.withUnread screen stack sound ∧ m.screen.bytes = screen.bytes ∧
      m.stack.toList = stack.toList := by
  refine ⟨n.screen, n.stack, n.sound, ext_parts fun p => ?_, h.picture, h.returns⟩
  by_cases hp : p ∈ unread
  · cases p <;> first | rfl | simp [unread] at hp
  · have hkept : m.Agrees (m.withUnread n.screen n.stack n.sound) p := by
      cases p <;> first | rfl | simp [unread] at hp
    exact (h.shared p hp).symm.trans hkept

/-- An instruction whose sources are all shared cannot tell the machines apart. -/
theorem perform_of_sources (h : m.Interchangeable n) {i : Instruction}
    (hsources : ∀ p ∈ sources i.operation, p ∉ unread) :
    Step.Match Interchangeable (m.perform i) (n.perform i) := by
  have hpc : m.Agrees n .pc := h.shared .pc (by decide)
  have hshared : ∀ p ∈ sources i.operation, m.Agrees n p := fun p hp => h.shared p (hsources p hp)
  have hsame := perform_congr hpc hshared
  -- A part that is changed is changed alike, and one that is not stays as it was.
  have hpart (p : Part) (hp : p ≠ .pc) : (m.perform i).machine.Agrees (n.perform i).machine p ∨
      (m.perform i).machine.Agrees m p ∧ (n.perform i).machine.Agrees n p := by
    by_cases htarget : p ∈ targets i.operation
    · exact .inl (hsame.machine p (List.mem_cons_of_mem _ htarget))
    · exact .inr ⟨m.perform_agrees hp i htarget, n.perform_agrees hp i htarget⟩
  refine ⟨hsame.verdict, hsame.events, ?_, ?_, ?_⟩
  · exact fun p hp => perform_agrees_of_agrees hpc hshared (h.shared p hp)
  · rcases hpart .screen (by decide) with hscreen | ⟨hm, hn⟩
    · exact congrArg Screen.bytes hscreen
    · exact (congrArg Screen.bytes hm).trans (h.picture.trans (congrArg Screen.bytes hn).symm)
  · rcases hpart .stack (by decide) with hstack | ⟨hm, hn⟩
    · exact congrArg CallStack.toList hstack
    · exact (congrArg CallStack.toList hm).trans (h.returns.trans (congrArg CallStack.toList hn).symm)

/-- Nor can a call or a return, which only look at the live addresses, or an instruction that draws,
which only looks at the picture. -/
theorem perform (h : m.Interchangeable n) (i : Instruction) :
    Step.Match Interchangeable (m.perform i) (n.perform i) := by
  by_cases hsources : ∀ p ∈ sources i.operation, p ∉ unread
  · exact h.perform_of_sources hsources
  · have hsame := h
    obtain ⟨screen, stack, sound, rfl, hpicture, hreturns⟩ := h.exists_eq
    obtain ⟨o, op⟩ := i
    cases op with
    | call =>
      rcases CallStack.push_of_toList_eq hreturns (m.pc + 2) with
        ⟨fault, hm, hn⟩ | ⟨s', t', hm, hn, hpushed⟩
      · simp only [Machine.perform, withUnread, hm, hn]
        exact ⟨rfl, rfl, hsame⟩
      · simp only [Machine.perform, withUnread, hm, hn]
        exact ⟨rfl, rfl, interchangeable_withUnread { m with pc := o.address } hpicture hpushed⟩
    | ret =>
      rcases CallStack.pop_of_toList_eq hreturns with
        ⟨fault, hm, hn⟩ | ⟨address, s', t', hm, hn, hpopped⟩
      · simp only [Machine.perform, withUnread, hm, hn]
        exact ⟨rfl, rfl, hsame⟩
      · simp only [Machine.perform, withUnread, hm, hn]
        exact ⟨rfl, rfl, interchangeable_withUnread { m with pc := address } hpicture hpopped⟩
    | draw =>
      simp only [Machine.perform, drawSprite, withUnread]
      cases m.memory.read m.index.toNat o.digit.val with
      | error fault => exact ⟨rfl, rfl, hsame⟩
      | ok rows =>
        simp only [register, Screen.draw_of_bytes_eq hpicture]
        exact ⟨rfl, rfl, interchangeable_withUnread (m.setFlag _).advance rfl hreturns⟩
    | skip condition => cases condition <;> simp [sources, unread] at hsources
    | _ => simp [sources, unread] at hsources

/-- A step keeps machines interchangeable and tells the same. -/
theorem step (h : m.Interchangeable n) : Step.Match Interchangeable m.step n.step :=
  step_match (h.shared .memory (by decide)) (h.shared .pc (by decide))
    (h.shared .halted (by decide)) h fun _ i _ _ _ => h.perform i

/-- So does every deed but a look at the screen, which tells the flag. -/
theorem deed {d : Deed} (h : d.before.Interchangeable n) (hlook : d.action ≠ .acknowledgeScreen) :
    d.Match Interchangeable n := by
  obtain ⟨m, a⟩ := d
  cases a with
  | step => exact h.step.deed
  | acknowledgeScreen => exact absurd rfl hlook
  | load program =>
    have hrandom : m.random = n.random := h.shared .random (by decide)
    rcases Nat.lt_or_ge 3584 program.size with hlarge | hfits
    · refine ⟨?_, ?_⟩
      · simp only [answer, load_of_lt _ hlarge]
      · rw [Deed.after, act_load_of_lt _ hlarge, act_load_of_lt _ hlarge]
        exact h
    · refine ⟨?_, ?_⟩
      · simp only [answer, load_of_le _ hfits]
      · rw [Deed.after, act_load_of_le _ hfits, act_load_of_le _ hfits, hrandom]
        exact .refl _
  | setKey key down =>
    obtain ⟨screen, stack, sound, rfl, hpicture, hreturns⟩ := h.exists_eq
    exact ⟨rfl, interchangeable_withUnread (m.setKey key down) hpicture hreturns⟩
  | tick =>
    obtain ⟨screen, stack, sound, rfl, hpicture, hreturns⟩ := h.exists_eq
    exact ⟨rfl, interchangeable_withUnread m.tick hpicture hreturns⟩

end Interchangeable

/-- The same machine with another address in a slot of its call stack. -/
def scribble (m : Machine) (k : Fin 76) (address : Word) : Machine :=
  { m with stack := m.stack.scribble k address }

/-- A slot that is not live may hold anything. -/
theorem interchangeable_scribble (m : Machine) {k : Fin 76} (h : m.stack.depth ≤ k.val)
    (address : Word) : m.Interchangeable (m.scribble k address) :=
  m.interchangeable_withUnread rfl (CallStack.toList_scribble h address).symm

end Machine

namespace Session

/-! ## What a host can find out -/

/-- Whether a move looks at the screen, and so at its flag. -/
def Move.isLook : Move → Bool
  | .act (.machine .acknowledgeScreen) => true
  | _ => false

/-- **State that nothing reads does not show.** If two machines differ only in the sound timer, the
flag of the screen and the slots of the call stack that are not live, then in sessions that are
otherwise the same, a host that does not look at the screen is told the same by all that it does:
by loads, by steps, by runs and their reports. The machines still differ in nothing else then, and
the sessions not at all.

In particular it does not matter which addresses returns have left behind in the call stack. -/
theorem unread_does_not_show (list : List Move) (hlist : ∀ v ∈ list, v.isLook = false) :
    (∀ (s : Session) (n : Machine), s.machine.Interchangeable n →
      (s.on n).answers list = s.answers list ∧
      ∃ n', (s.on n).moves list = (s.moves list).on n' ∧ (s.moves list).machine.Interchangeable n') ∧
    ∀ (s : Session) (k : Fin 76) (address : Word), s.machine.stack.depth ≤ k.val →
      (s.on (s.machine.scribble k address)).answers list = s.answers list ∧
        ((s.on (s.machine.scribble k address)).moves list).machine.pc
          = (s.moves list).machine.pc := by
  have hmoves : ∀ (s : Session) (n : Machine), s.machine.Interchangeable n →
      (s.on n).answers list = s.answers list ∧
      ∃ n', (s.on n).moves list = (s.moves list).on n' ∧
        (s.moves list).machine.Interchangeable n' := by
    intro s n h
    refine moves_correspond ?_ (fun d hd n hn => ?_) h
    · exact fun h => ⟨h.shared .pc (by decide), h.shared .halted (by decide)⟩
    · refine hn.deed fun hlook => ?_
      rcases mem_deedsOf hd with hstep | hmem
      · cases hstep.symm.trans hlook
      · rw [hlook] at hmem
        cases hlist _ hmem
  refine ⟨hmoves, fun s k address hk => ?_⟩
  obtain ⟨hanswers, n', hsession, hn'⟩ :=
    hmoves s _ (s.machine.interchangeable_scribble hk address)
  rw [hsession]
  exact ⟨hanswers, (hn'.shared .pc (by decide)).symm⟩

/-- A session of a machine that is back from one of two calls. -/
def halfReturned : Session := fresh (Machine.inNested (Machine.twoCalls ⟨1, by decide⟩) 0x206) {}

/-- A host that lets it go on. -/
def goingOn : List Move := [.act (.machine .tick), .act (.machine .step), .act .run]

/-- The address that the first return has left behind is written over, and a tone is on. Neither
matters to the other return. -/
theorem unread_does_not_show_halfReturned :
    let n := { halfReturned.machine.scribble 1 0x300 with sound := 7 }
    (halfReturned.on n).answers goingOn = halfReturned.answers goingOn ∧
      ((halfReturned.on (halfReturned.machine.scribble 1 0x300)).moves goingOn).machine.pc
        = (halfReturned.moves goingOn).machine.pc := by
  intro n
  obtain ⟨hmoves, hslots⟩ := unread_does_not_show goingOn (by decide)
  have hdead : halfReturned.machine.stack.depth ≤ (1 : Fin 76).val := by decide
  have hn : halfReturned.machine.Interchangeable n :=
    halfReturned.machine.interchangeable_withUnread rfl
      (CallStack.toList_scribble hdead 0x300).symm
  exact ⟨(hmoves halfReturned n hn).1, (hslots halfReturned 1 0x300 hdead).2⟩

end Session

end ChipEight
