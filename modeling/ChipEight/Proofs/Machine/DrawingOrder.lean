import ChipEight.Proofs.Machine.Redrawing
import ChipEight.Proofs.Machine.ScreenFlag
import ChipEight.Proofs.Session.Hosting

/-!
# Pictures as collections of drawings

As long as the screen is not cleared and no program is loaded, drawing is all that changes the
picture. Then the picture is what it was at the start with all drawings put over it, and it only
matters how many of them cover a pixel, and not in which order they came or what else was done in
between.

## Main definitions

- `Machine.Deed.Wipes`: deeds that put an end to a picture
- `Machine.Deed.drawing?`: what was drawn by a deed

## Main statements

- `Machine.Leads.bytes_eq`: the picture after several deeds
- `Machine.drawings_in_any_order`: drawings give the same picture in any order
-/

namespace ChipEight.Machine

/-! ## What a deed draws -/

/-- What an instruction that draws is given. -/
def drawingOf (m : Machine) (i : Instruction) : Drawing where
  x := m.register i.x
  y := m.register i.y
  rows := m.memory.bytesAt m.index.toNat i.digit.val
  length_rows_lt := by
    rw [Memory.length_bytesAt]
    exact i.digit.isLt

namespace Deed

/-- A program was loaded, or the screen was cleared. -/
def Wipes (d : Deed) : Prop :=
  (∃ program, d.loaded? = some program) ∨
    ∃ i, d.performed? = some i ∧ i.operation = .clearScreen

/-- What was drawn, if the deed performed an instruction that draws. -/
def drawing? (d : Deed) : Option Drawing :=
  match d.performed? with
  | some i => if i.operation = .draw then some (d.before.drawingOf i) else none
  | none => none

variable {d : Deed}

theorem not_wipes_of_draw {i : Instruction} (hloaded : d.loaded? = none)
    (h : d.performed? = some i) (hdraw : i.operation = .draw) : ¬d.Wipes := by
  rintro (⟨program, hprogram⟩ | ⟨j, hj, hclear⟩)
  · cases hloaded.symm.trans hprogram
  · obtain rfl := Option.some.inj (h.symm.trans hj)
    cases hdraw.symm.trans hclear

theorem drawing?_of_none (h : d.performed? = none) : d.drawing? = none := by
  rw [drawing?, h]

theorem drawing?_of_draw {i : Instruction} (h : d.performed? = some i) (hdraw : i.operation = .draw) :
    d.drawing? = some (d.before.drawingOf i) := by
  rw [drawing?, h]
  exact if_pos hdraw

theorem drawing?_of_other {i : Instruction} (h : d.performed? = some i)
    (hother : i.operation ≠ .draw) : d.drawing? = none := by
  rw [drawing?, h]
  exact if_neg hother

/-- An instruction that draws succeeds if its sprite is in memory. -/
theorem screen_of_draw {m : Machine} {i : Instruction} {progress : Progress}
    (hdraw : i.operation = .draw) (hok : (m.perform i).verdict = .ok progress) :
    (m.perform i).machine.screen = (m.screen.draw (m.drawingOf i).sprite).1 := by
  simp only [perform, hdraw, drawSprite] at hok ⊢
  by_cases hfits : m.index.toNat + i.digit.val ≤ 4096
  · simp only [m.memory.read_eq_bytesAt hfits]
    rfl
  · rw [Memory.read, dif_neg hfits] at hok
    cases hok

/-- A deed that does not put an end to the picture adds its drawing, if there is one. -/
theorem bytes_after (h : ¬d.Wipes) :
    d.after.screen.bytes = (d.before.screen.drawAll d.drawing?.toList).bytes := by
  cases d.cases with
  | loaded hloaded => exact absurd (.inl ⟨_, hloaded⟩) h
  | input _ hnone halike =>
    rw [drawing?_of_none hnone]
    exact halike.picture
  | @performed i _ _ hi _ _ _ hok hafter =>
    by_cases hdraw : i.operation = .draw
    · rw [drawing?_of_draw hi hdraw, hafter, screen_of_draw hdraw hok]
      rfl
    · -- Only clearing and drawing change the picture, and it was neither of them.
      rw [drawing?_of_other hi hdraw, hafter]
      rcases screen_perform hok with ⟨hclear | hdraw', -⟩ | ⟨-, hsame⟩
      · exact absurd (.inr ⟨i, hi, hclear⟩) h
      · exact absurd hdraw' hdraw
      · exact congrArg Screen.bytes hsame

end Deed

/-! ## The picture after several deeds -/

/-- What was drawn, the first drawing first. -/
def drawingsOf (past : List Deed) : List Drawing := (past.filterMap Deed.drawing?).reverse

@[simp] theorem drawingsOf_nil : drawingsOf [] = [] := rfl

theorem drawingsOf_cons (d : Deed) (past : List Deed) :
    drawingsOf (d :: past) = drawingsOf past ++ d.drawing?.toList := by
  cases hd : d.drawing? with
  | none => rw [drawingsOf, List.filterMap_cons_none hd, Option.toList_none, List.append_nil]; rfl
  | some drawing => rw [drawingsOf, List.filterMap_cons_some hd, List.reverse_cons]; rfl

/-- If nothing puts an end to the picture, all drawings are put over it one after the other. -/
theorem Leads.bytes_eq {m n : Machine} {past : List Deed} (h : m.Leads past n)
    (hkept : ∀ d ∈ past, ¬d.Wipes) :
    n.screen.bytes = (m.screen.drawAll (drawingsOf past)).bytes := by
  induction h with
  | nothing => rfl
  | deed d _ ih =>
    obtain ⟨hd, hpast⟩ := List.forall_mem_cons.mp hkept
    rw [d.bytes_after hd, drawingsOf_cons, Screen.drawAll_append]
    exact Screen.bytes_drawAll_congr (ih hpast) _

/-- **Drawings give the same picture in any order.** A pixel is lit after several drawings exactly
if it was lit before or else an odd number of them cover it. So the order does not matter to the
bytes of the picture. This is what comes of all that is done to a machine if the screen is not
cleared and no program is loaded: whatever else was done, the picture is the one of the drawings
that were made, put into any order. -/
theorem drawings_in_any_order (s : Screen) (drawings : List Drawing) :
    (∀ p : Pixel, (s.drawAll drawings).lit p =
        (s.lit p ^^ decide (drawings.countP (fun d => d.Covers p) % 2 = 1))) ∧
      (∀ others, others.Perm drawings → (s.drawAll others).bytes = (s.drawAll drawings).bytes) ∧
      ∀ (m n : Machine) (past : List Deed), m.Leads past n → m.screen.bytes = s.bytes →
        (∀ d ∈ past, ¬d.Wipes) → (drawingsOf past).Perm drawings →
          n.screen.bytes = (s.drawAll drawings).bytes := by
  refine ⟨s.lit_drawAll drawings, fun others hperm => Screen.bytes_drawAll_of_perm hperm, ?_⟩
  intro m n past h hbefore hkept hperm
  calc
    n.screen.bytes = (m.screen.drawAll (drawingsOf past)).bytes := h.bytes_eq hkept
    _ = (s.drawAll (drawingsOf past)).bytes := Screen.bytes_drawAll_congr hbefore _
    _ = (s.drawAll drawings).bytes := Screen.bytes_drawAll_of_perm hperm

theorem performed?_of_draw {m : Machine} {i : Instruction} (hrun : m.halted = false)
    (hi : m.instruction? = some i) (hdraw : i.operation = .draw)
    (hfits : m.index.toNat + i.digit.val ≤ 4096) : m.performed? = some i :=
  (performed?_of_ok hrun (step_of_draw hrun hi hdraw hfits).1).trans hi

/-- What two steps draw. -/
theorem drawingsOf_two_steps {m : Machine} {i j : Instruction} (hi : m.performed? = some i)
    (hj : m.step.machine.performed? = some j) (hdraw : i.operation = .draw)
    (hdraw' : j.operation = .draw) :
    drawingsOf (m.steps 2) = [m.drawingOf i, m.step.machine.drawingOf j] ∧
      ∀ d ∈ m.steps 2, ¬d.Wipes := by
  change drawingsOf [⟨m.step.machine, .step⟩, ⟨m, .step⟩] = _ ∧
    ∀ d ∈ [Deed.mk m.step.machine .step, ⟨m, .step⟩], ¬d.Wipes
  have hfirst : (Deed.mk m .step).drawing? = _ := Deed.drawing?_of_draw hi hdraw
  have hsecond : (Deed.mk m.step.machine .step).drawing? = _ := Deed.drawing?_of_draw hj hdraw'
  constructor
  · rw [drawingsOf_cons, drawingsOf_cons, drawingsOf_nil, hfirst, hsecond]
    rfl
  · refine List.forall_mem_cons.mpr ⟨?_, List.forall_mem_singleton.mpr ?_⟩
    · exact Deed.not_wipes_of_draw rfl hj hdraw'
    · exact Deed.not_wipes_of_draw rfl hi hdraw

/-- A machine that is to draw the glyph of 0 in columns 6 to 9 from row 8 on, and then in columns 8
to 11 from row 6 on. In columns 8 and 9 one glyph lies over the other. -/
def crossing : Machine :=
  { ((fresh (.image #[0xD0, 0x15, 0xD1, 0x05]) (.ofSeed 0)).setRegister 0 6).setRegister 1 8 with
    index := 0x100 }

/-- The second instruction that it performs. -/
def drawGlyphAcross : Instruction := { x := 1, y := 0, immediate := 5, operation := .draw }

/-- The drawing of the glyph of 0 at a place. -/
def glyphAt (x y : UInt8) : Drawing := ⟨x, y, [0xF0, 0x90, 0x90, 0x90, 0xF0], by decide⟩

/-- What a machine draws that has the glyph of 0 before it. -/
theorem drawingOf_eq_glyphAt {m : Machine} {i : Instruction} {x y : UInt8}
    (hx : m.register i.x = x) (hy : m.register i.y = y) (hdigit : i.digit = 5)
    (hindex : m.index = 0x100) (hmemory : m.memory = crossing.memory) :
    m.drawingOf i = glyphAt x y := by
  have hbyte {r : Nat} (hr : r < 80) : m.memory.byteAt (0x100 + r) = Glyphs.rows.getD r 0 := by
    rw [hmemory]
    exact Memory.byteAt_image #[0xD0, 0x15, 0xD1, 0x05] hr
  have hrows : m.memory.bytesAt m.index.toNat i.digit.val = [0xF0, 0x90, 0x90, 0x90, 0xF0] := by
    rw [hindex, hdigit]
    change (List.range 5).map (fun r => m.memory.byteAt (0x100 + r)) = _
    rw [List.map_congr_left fun r hr => hbyte (by have := List.mem_range.mp hr; omega)]
    decide
  simp only [drawingOf, glyphAt, hx, hy, hrows]

theorem instruction?_crossing :
    crossing.instruction? = some drawGlyph ∧
      crossing.step.machine.instruction? = some drawGlyphAcross := by
  let program : Array UInt8 := #[0xD0, 0x15, 0xD1, 0x05]
  have hword (i : Nat) (hi : i + 1 < program.size) :
      (Memory.image program).word (0x200 + i) = .ok (.ofBytes program[i] program[i + 1]) :=
    Memory.word_image (by decide) hi
  have hfirst : crossing.instruction? = some drawGlyph :=
    instruction?_of_decode (hword 0 (by decide)) (by decide)
  refine ⟨hfirst, ?_⟩
  rw [(step_of_draw rfl hfirst rfl (by decide)).2]
  exact instruction?_of_decode (hword 2 (by decide)) (by decide)

/-- The picture after both steps is that of the two drawings in the other order, which are not the
same. A pixel that only one of them covers is lit, and one that both of them cover is dark. -/
theorem drawings_in_any_order_crossing :
    (crossing.after 2).screen.bytes
        = (crossing.screen.drawAll [glyphAt 8 6, glyphAt 6 8]).bytes ∧
      glyphAt 8 6 ≠ glyphAt 6 8 ∧
      (crossing.after 2).screen.lit ⟨6, 8⟩ = true ∧
      (crossing.after 2).screen.lit ⟨9, 10⟩ = false := by
  obtain ⟨hfirst, hsecond⟩ := instruction?_crossing
  obtain ⟨hrun, hmemory, hindex, hregisters⟩ := kept_of_draw rfl hfirst rfl (by decide)
  have hx : crossing.step.machine.register 1 = 8 := (hregisters 1 (by decide)).trans (by decide)
  have hy : crossing.step.machine.register 0 = 6 := (hregisters 0 (by decide)).trans (by decide)
  have hfits : crossing.step.machine.index.toNat + drawGlyphAcross.digit.val ≤ 4096 := by
    rw [hindex]
    decide
  have hleads : crossing.Leads (crossing.steps 2) (crossing.after 2) := by
    have hsteps := (Leads.nothing (m := crossing)).steps 2
    rwa [List.append_nil] at hsteps
  obtain ⟨hdrawings, hkept⟩ := drawingsOf_two_steps (performed?_of_draw rfl hfirst rfl (by decide))
    (performed?_of_draw hrun hsecond rfl hfits) rfl rfl
  rw [drawingOf_eq_glyphAt (m := crossing) (i := drawGlyph) (x := 6) (y := 8) (by decide)
      (by decide) rfl rfl rfl,
    drawingOf_eq_glyphAt (i := drawGlyphAcross) hx hy rfl hindex hmemory] at hdrawings
  obtain ⟨hlit, -, hpicture⟩ :=
    drawings_in_any_order crossing.screen [glyphAt 8 6, glyphAt 6 8]
  have hafter := hpicture crossing (crossing.after 2) _ hleads rfl hkept
    (by rw [hdrawings]; exact .swap _ _ _)
  refine ⟨hafter, by decide, ?_, ?_⟩
  · rw [Screen.lit_congr hafter, hlit]
    decide
  · rw [Screen.lit_congr hafter, hlit]
    decide

end ChipEight.Machine
