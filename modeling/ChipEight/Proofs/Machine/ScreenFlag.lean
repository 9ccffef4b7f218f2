import ChipEight.Proofs.Machine.Chronicle

/-!
# The flag of the screen

A host that shows the picture only wants to do so when there is something new in it. It looks at the
screen now and then, and the flag tells it whether anything happened since it looked last. The flag
is a single bit, but it answers a question about the whole past: it is set exactly if since then the
machine was switched on, a program was loaded, or the screen was cleared or drawn on, be it that the
picture came out the same.

So a host that looks, and shows the picture if the flag was set, misses nothing: as long as the flag
is not set, the picture is the one that it found when it looked last.

## Main definitions

- `Machine.Deed.Repaints`: deeds after which the picture may be another one
- `Machine.Unseen`: whether there was such a deed since the host looked last

## Main statements

- `Machine.Deed.screenChange`: what a deed does to the screen
- `Machine.dirty_iff_unseen`: the flag, at any time
-/

namespace ChipEight.Machine

/-! ## Deeds and the screen -/

def Action.isLook : Action → Bool
  | .acknowledgeScreen => true
  | _ => false

namespace Deed

/-- A program was loaded, or the screen was cleared or drawn on. -/
def Repaints (d : Deed) : Prop :=
  (∃ program, d.loaded? = some program) ∨
    ∃ i, d.performed? = some i ∧ (i.operation = .clearScreen ∨ i.operation = .draw)

/-- What a deed does to the screen. -/
inductive ScreenChange (d : Deed) : Prop where
  | looked (hlook : d.action.isLook = true)
      (hscreen : d.after.screen = d.before.screen.acknowledge)
  | repainted (hlook : d.action.isLook = false) (hrepaints : d.Repaints)
      (hdirty : d.after.screen.dirty = true)
  | kept (hlook : d.action.isLook = false) (hkeeps : ¬d.Repaints)
      (hscreen : d.after.screen = d.before.screen)

theorem not_repaints_of_none {d : Deed} (hloaded : d.loaded? = none)
    (hperformed : d.performed? = none) : ¬d.Repaints := by
  rintro (⟨program, hprogram⟩ | ⟨i, hi, -⟩)
  · cases hloaded.symm.trans hprogram
  · cases hperformed.symm.trans hi

/-- Drawing sets the flag, whether or not a pixel changes. -/
theorem dirty_drawSprite {m : Machine} {o : Operands} {progress : Progress}
    (h : (m.drawSprite o).verdict = .ok progress) :
    (m.drawSprite o).machine.screen.dirty = true := by
  unfold drawSprite at h ⊢
  split at h
  · cases h
  · rfl

/-- What an instruction does to the screen. -/
theorem screen_perform {m : Machine} {i : Instruction} {progress : Progress}
    (h : (m.perform i).verdict = .ok progress) :
    (i.operation = .clearScreen ∨ i.operation = .draw) ∧
        (m.perform i).machine.screen.dirty = true ∨
      ¬(i.operation = .clearScreen ∨ i.operation = .draw) ∧
        (m.perform i).machine.screen = m.screen := by
  by_cases hpaints : i.operation = .clearScreen ∨ i.operation = .draw
  · refine .inl ⟨hpaints, ?_⟩
    rcases hpaints with hclear | hdraw
    · simp only [perform, hclear]
      rfl
    · simp only [perform, hdraw] at h ⊢
      exact dirty_drawSprite h
  · refine .inr ⟨hpaints, ?_⟩
    apply m.perform_agrees (p := .screen) (by decide)
    cases hop : i.operation <;> simp_all [targets]

theorem screenChange (d : Deed) : d.ScreenChange := by
  obtain ⟨m, a⟩ := d
  cases a with
  | load program =>
    rcases Nat.lt_or_ge 3584 program.size with hlarge | hfits
    · refine .kept rfl (not_repaints_of_none (if_neg (Nat.not_le.mpr hlarge)) rfl) ?_
      rw [after, act_load_of_lt m hlarge]
    · refine .repainted rfl (.inl ⟨program, if_pos hfits⟩) ?_
      rw [after, act_load_of_le m hfits]
      rfl
  | step =>
    cases m.stepCase with
    | halted hhalted hstep =>
      refine .kept rfl (not_repaints_of_none rfl (performed?_of_halted hhalted)) ?_
      rw [after, act, hstep]
    | failed hverdict hsame =>
      refine .kept rfl (not_repaints_of_none rfl (performed?_of_error hverdict)) ?_
      rw [after, act, hsame]
    | performed hrun hword hdecode hperform _ hmachine =>
      have hperformed := (performed?_of_perform hrun hword hdecode hperform).1
      rcases screen_perform hperform with ⟨hpaints, hdirty⟩ | ⟨hother, hsame⟩
      · refine .repainted rfl (.inr ⟨_, hperformed, hpaints⟩) ?_
        rw [after, act, hmachine]
        exact hdirty
      · refine .kept rfl ?_ ?_
        · rintro (⟨program, hprogram⟩ | ⟨j, hj, hpaints⟩)
          · cases hprogram
          · obtain rfl := Option.some.inj (hperformed.symm.trans hj)
            exact hother hpaints
        · rw [after, act, hmachine]
          exact hsame
  | setKey key down => exact .kept rfl (not_repaints_of_none rfl rfl) rfl
  | tick => exact .kept rfl (not_repaints_of_none rfl rfl) rfl
  | acknowledgeScreen => exact .looked rfl rfl

end Deed

/-! ## Since the host looked -/

/-- The deeds since the host looked at the screen last, or since the machine was switched on. -/
def sinceLook (past : List Deed) : List Deed := past.takeWhile fun d => !d.action.isLook

/-- Whether there may be something on the screen that the host has not seen: it never looked since
the machine was switched on, or the screen was repainted since it looked last. -/
def Unseen (past : List Deed) : Prop :=
  (∀ d ∈ past, d.action.isLook = false) ∨ ∃ d ∈ sinceLook past, d.Repaints

section Cons

variable {d : Deed} {past : List Deed}

theorem not_unseen_cons_of_look (h : d.action.isLook = true) : ¬Unseen (d :: past) := by
  rintro (hnever | ⟨e, he, -⟩)
  · rw [hnever d List.mem_cons_self] at h
    cases h
  · simp [sinceLook, h] at he

theorem unseen_cons_iff (h : d.action.isLook = false) :
    Unseen (d :: past) ↔ d.Repaints ∨ Unseen past := by
  simp only [Unseen, sinceLook, h, Bool.not_false, List.takeWhile_cons_of_pos, List.mem_cons,
    forall_eq_or_imp, true_and, exists_eq_or_imp]
  exact or_left_comm

end Cons

namespace Chronicle

variable {m : Machine} {past : List Deed}

theorem dirty_iff (hm : m.Chronicle past) : m.screen.dirty = true ↔ Unseen past := by
  apply hm.invariant (P := fun m past => m.screen.dirty = true ↔ Unseen past)
  · exact fun random => ⟨fun _ => .inl nofun, fun _ => rfl⟩
  · intro d past ih
    cases d.screenChange with
    | looked hlook hscreen =>
      rw [hscreen]
      exact ⟨nofun, fun h => absurd h (not_unseen_cons_of_look hlook)⟩
    | repainted hlook hrepaints hdirty =>
      exact ⟨fun _ => (unseen_cons_iff hlook).mpr (.inl hrepaints), fun _ => hdirty⟩
    | kept hlook hkeeps hscreen =>
      rw [hscreen, unseen_cons_iff hlook, ih]
      exact ⟨.inr, fun h => h.resolve_left hkeeps⟩

/-- As long as the flag is not set the picture is the one that the host has seen. -/
theorem bytes_eq_of_not_dirty (hm : m.Chronicle past) (hdirty : m.screen.dirty = false)
    {later earlier : List Deed} {d : Deed} (hpast : past = later ++ d :: earlier)
    (hlook : d.action.isLook = true) (hlater : ∀ e ∈ later, e.action.isLook = false) :
    m.screen.bytes = d.after.screen.bytes := by
  -- The flag and what happened later go into the invariant, as both change with each deed.
  apply hm.invariant (P := fun m past => m.screen.dirty = false → ∀ later,
    past = later ++ d :: earlier → (∀ e ∈ later, e.action.isLook = false) →
      m.screen.bytes = d.after.screen.bytes) ?_ ?_ hdirty later hpast hlater
  · intro random hdirty
    cases hdirty
  · intro newest past ih hdirty later hpast hlater
    cases later with
    | nil =>
      obtain ⟨rfl, -⟩ := List.cons.inj hpast
      rfl
    | cons e later =>
      obtain ⟨rfl, hrest⟩ := List.cons.inj hpast
      obtain ⟨hnewest, hlater⟩ := List.forall_mem_cons.mp hlater
      cases newest.screenChange with
      | looked hlook' => cases hlook'.symm.trans hnewest
      | repainted _ _ hset => cases hset.symm.trans hdirty
      | kept _ _ hscreen =>
        rw [hscreen] at hdirty ⊢
        exact ih hdirty later hrest hlater

end Chronicle

/-- **No picture is missed.** The flag of the screen is set exactly if there may be something that
the host has not seen, and the host is told so when it looks. Whenever the picture is another one
than when it looked last, the flag is set. Nothing but looking and repainting touches the flag. -/
theorem dirty_iff_unseen {m : Machine} {past : List Deed} (hm : m.Chronicle past) :
    (m.screen.dirty = true ↔ Unseen past) ∧
      m.answer .acknowledgeScreen = .acknowledged m.screen.dirty ∧
      (∀ later d earlier, past = later ++ d :: earlier → d.action.isLook = true →
        (∀ e ∈ later, e.action.isLook = false) → m.screen.bytes ≠ d.after.screen.bytes →
          m.screen.dirty = true) ∧
      ∀ a : Action, a.isLook = false → ¬(Deed.mk m a).Repaints →
        (m.act a).screen = m.screen := by
  refine ⟨hm.dirty_iff, rfl, ?_, ?_⟩
  · intro later d earlier hpast hlook hlater hbytes
    cases hdirty : m.screen.dirty with
    | true => rfl
    | false => exact absurd (hm.bytes_eq_of_not_dirty hdirty hpast hlook hlater) hbytes
  · intro a hlook hkeeps
    cases (Deed.mk m a).screenChange with
    | looked hlook' => cases hlook.symm.trans hlook'
    | repainted _ hrepaints => exact absurd hrepaints hkeeps
    | kept _ _ hscreen => exact hscreen

/-- A machine in front of an instruction that clears the screen. -/
def atClear : Machine := fresh (.image #[0x00, 0xE0]) (.ofSeed 0)

/-- What was done to it until the host looked at the screen. -/
def lookedPast : List Deed :=
  [⟨atClear, .acknowledgeScreen⟩, ⟨powerOn (.ofSeed 0), .load #[0x00, 0xE0]⟩]

theorem chronicle_lookedPast : atClear.acknowledgeScreen.Chronicle lookedPast := by
  have hload : (powerOn (.ofSeed 0)).act (.load #[0x00, 0xE0]) = atClear :=
    act_load_of_le _ (by decide)
  have hloaded := (Chronicle.powerOn (.ofSeed 0)).act (.load #[0x00, 0xE0])
  rw [hload] at hloaded
  exact hloaded.act .acknowledgeScreen

theorem performed?_atClear :
    atClear.acknowledgeScreen.performed? = some { operation := .clearScreen } := by
  have hword : atClear.acknowledgeScreen.memory.word atClear.acknowledgeScreen.pc.toNat
      = .ok (.ofBytes 0x00 0xE0) := Memory.word_image (i := 0) (by decide) (by decide)
  exact (performed?_of_perform rfl hword (by decide) rfl).1

/-- When the host has looked the flag is not set. Clearing a dark screen sets it. -/
theorem dirty_iff_unseen_atClear :
    atClear.acknowledgeScreen.screen.dirty = false ∧
      (atClear.acknowledgeScreen.act .step).screen.dirty = true := by
  constructor
  · have hseen : ¬Unseen lookedPast := not_unseen_cons_of_look rfl
    exact Bool.eq_false_iff.mpr (mt (dirty_iff_unseen chronicle_lookedPast).1.mp hseen)
  · apply (dirty_iff_unseen (chronicle_lookedPast.act .step)).1.mpr
    exact (unseen_cons_iff rfl).mpr (.inl (.inr ⟨_, performed?_atClear, .inl rfl⟩))

end ChipEight.Machine
