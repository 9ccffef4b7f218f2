import ChipEight.Proofs.Machine.Chronicle

/-!
# Calls and the returns that match them

Calls and returns are brackets. In a chronicle a call is matched by the first return after it such
that in between calls and returns match each other. The calls that are still open are those that no
return matches, and the live stack holds for each of them the address two behind it.

Where a return goes is thus decided by the call that it matches, and not by what happens in between:
as long as the stack stays deeper than it was before the call, the addresses that it held then, and
the one on top that the call put there, stay where they are.

## Main definitions

- `Machine.Balanced`: stretches of a chronicle in which calls and returns match
- `Machine.OpenCalls`: the calls of a chronicle that no return matches
- `Machine.Deed.StackChange`: what a deed does to the stack

## Main statements

- `Machine.OpenCalls.eq_unmatched`: there is one way to match calls and returns
- `Machine.Chronicle.exists_openCalls`: the live stack belongs to the open calls
- `Machine.stack_retained`: a stack that stays deep keeps what lies at its bottom
- `Machine.calls_match_returns`: calls and returns match over every history
-/

namespace ChipEight.Machine

/-! ## Calls and returns -/

/-- Whether a step performs an instruction with the given operation. -/
def Performs (m : Machine) (op : Operation) : Prop :=
  m.performed?.map Instruction.operation = some op

namespace Deed

/-- Whether an instruction with the given operation was performed. -/
def Performs (d : Deed) (op : Operation) : Prop :=
  d.performed?.map Instruction.operation = some op

instance (d : Deed) (op : Operation) : Decidable (d.Performs op) :=
  inferInstanceAs (Decidable (_ = _))

theorem performs_iff {d : Deed} {i : Instruction} (h : d.performed? = some i) {op : Operation} :
    d.Performs op ↔ i.operation = op := by
  simp [Performs, h]

theorem not_performs {d : Deed} (h : d.performed? = none) (op : Operation) : ¬d.Performs op := by
  simp [Performs, h]

theorem Performs.unique {d : Deed} {op op' : Operation} (h : d.Performs op) (h' : d.Performs op') :
    op = op' :=
  Option.some.inj (h.symm.trans h')

/-- The address behind a call, where the return that matches it goes. -/
def returnAddress (d : Deed) : Nat := d.before.pc.toNat + 2

end Deed

/-- Calls and returns match each other in this stretch of a chronicle. Like all chronicles it is
read backwards, so a return comes first and the call that it matches after it. -/
inductive Balanced : List Deed → Prop where
  | nil : Balanced []
  | other {d : Deed} {past : List Deed} (hcall : ¬d.Performs .call) (hret : ¬d.Performs .ret)
      (hrest : Balanced past) : Balanced (d :: past)
  | nested {ret call : Deed} {inner past : List Deed} (hret : ret.Performs .ret)
      (hinner : Balanced inner) (hcall : call.Performs .call) (hrest : Balanced past) :
      Balanced (ret :: inner ++ call :: past)

/-- The calls of a chronicle that no return matches, oldest first. Before the first of them, between
them and after the last one, calls and returns match each other. -/
inductive OpenCalls : (past calls : List Deed) → Prop where
  | none {past : List Deed} (hpast : Balanced past) : OpenCalls past []
  | call {call : Deed} {later earlier calls : List Deed} (hlater : Balanced later)
      (hcall : call.Performs .call) (hearlier : OpenCalls earlier calls) :
      OpenCalls (later ++ call :: earlier) (calls ++ [call])

namespace OpenCalls

variable {d c : Deed} {past calls : List Deed}

theorem other (h : OpenCalls past calls) (hcall : ¬d.Performs .call) (hret : ¬d.Performs .ret) :
    OpenCalls (d :: past) calls := by
  cases h with
  | none hpast => exact .none (.other hcall hret hpast)
  | call hlater hopen hearlier => exact .call (.other hcall hret hlater) hopen hearlier

/-- A return matches the newest of the open calls. -/
theorem returned (h : OpenCalls past (calls ++ [c])) (hret : d.Performs .ret) :
    OpenCalls (d :: past) calls := by
  -- No constructor has a list of this form, so the case of no open calls is told apart by hand.
  generalize hall : calls ++ [c] = all at h
  cases h with
  | none => simp at hall
  | @call c later earlier _ hlater hopen hearlier =>
    obtain ⟨rfl, -⟩ := List.append_inj' hall rfl
    -- The stretch since the call before this one is balanced again, now with this one in it.
    cases hearlier with
    | none hearlier => exact .none (.nested hret hlater hopen hearlier)
    | @call c' later' earlier' _ hlater' hopen' hearlier' =>
      have hsplit : d :: (later ++ c :: (later' ++ c' :: earlier'))
          = (d :: later ++ c :: later') ++ c' :: earlier' := by simp
      rw [hsplit]
      exact .call (.nested hret hlater hopen hlater') hopen' hearlier'

end OpenCalls

/-- The open calls found by going through a chronicle: each return takes the newest one away. -/
def unmatched : (past : List Deed) → List Deed
  | [] => []
  | d :: past =>
    if d.Performs .call then unmatched past ++ [d]
    else if d.Performs .ret then (unmatched past).dropLast
    else unmatched past

theorem unmatched_call {d : Deed} (past : List Deed) (hcall : d.Performs .call) :
    unmatched (d :: past) = unmatched past ++ [d] := if_pos hcall

/-- A balanced stretch leaves no call open, and closes none from before it. -/
theorem Balanced.unmatched_append {recent : List Deed} (h : Balanced recent) (past : List Deed) :
    unmatched (recent ++ past) = unmatched past := by
  -- What comes before a nested stretch differs from what comes before the whole, so `past` varies.
  induction h generalizing past with
  | nil => rfl
  | other hcall hret _ ih => rw [List.cons_append, unmatched, if_neg hcall, if_neg hret, ih]
  | @nested ret call inner rest hret _ hcall _ ihinner ihrest =>
    have hnot : ¬ret.Performs .call := fun h => by cases h.unique hret
    rw [List.cons_append, List.cons_append, List.append_assoc, unmatched, if_neg hnot, if_pos hret,
      ihinner, List.cons_append, unmatched_call _ hcall, List.dropLast_concat, ihrest]

/-- There is only one way to match calls and returns. -/
theorem OpenCalls.eq_unmatched {past calls : List Deed} (h : OpenCalls past calls) :
    calls = unmatched past := by
  induction h with
  | none hpast =>
    have hall := hpast.unmatched_append []
    rw [List.append_nil] at hall
    exact hall.symm
  | call hlater hcall _ ih => rw [hlater.unmatched_append, unmatched_call _ hcall, ih]

/-! ## The stack of one deed -/

theorem stack_call {m : Machine} {i : Instruction} {progress : Progress}
    (hi : i.operation = .call) (h : (m.perform i).verdict = .ok progress) :
    (m.perform i).machine.stack.toList = m.stack.toList ++ [m.pc + 2] := by
  simp only [perform, hi] at h ⊢
  split at h
  · cases h
  · rename_i stack hpush
    exact CallStack.toList_push hpush

theorem stack_ret {m : Machine} {i : Instruction} {progress : Progress}
    (hi : i.operation = .ret) (h : (m.perform i).verdict = .ok progress) :
    m.stack.toList = (m.perform i).machine.stack.toList ++ [(m.perform i).machine.pc] := by
  simp only [perform, hi] at h ⊢
  split at h
  · cases h
  · rename_i address stack hpop
    exact CallStack.toList_pop hpop

/-- What a deed does to the stack. -/
inductive Deed.StackChange (d : Deed) : Prop where
  | called (hcall : d.Performs .call) (hpc : d.before.pc.toNat ≤ 0xFFE)
      (hstack : d.after.stack.toList = d.before.stack.toList ++ [d.before.pc + 2])
  | returned (hret : d.Performs .ret)
      (hstack : d.before.stack.toList = d.after.stack.toList ++ [d.after.pc])
  | emptied {program : Array UInt8} (hloaded : d.loaded? = some program)
      (haction : d.action = .load program) (hsize : program.size ≤ 3584)
      (hstack : d.after.stack.toList = [])
  | kept (hcall : ¬d.Performs .call) (hret : ¬d.Performs .ret)
      (hstack : d.after.stack = d.before.stack)

theorem Deed.stackChange (d : Deed) : d.StackChange := by
  cases d.cases with
  | @performed i progress _ hperformed _ _ hpc hverdict hafter =>
    by_cases hcall : i.operation = .call
    · refine .called ((performs_iff hperformed).mpr hcall) hpc ?_
      rw [hafter]
      exact stack_call hcall hverdict
    · by_cases hret : i.operation = .ret
      · refine .returned ((performs_iff hperformed).mpr hret) ?_
        rw [hafter]
        exact stack_ret hret hverdict
      · -- No other instruction has the stack among its targets.
        have hperforms (op : Operation) : d.Performs op ↔ i.operation = op :=
          performs_iff hperformed
        refine .kept (mt (hperforms _).mp hcall) (mt (hperforms _).mp hret) ?_
        rw [hafter]
        exact d.before.perform_stack hcall hret
  | loaded hloaded _ haction hsize hafter =>
    refine .emptied hloaded haction hsize ?_
    rw [hafter]
    rfl
  | input _ hperformed halike =>
    exact .kept (not_performs hperformed _) (not_performs hperformed _) halike.stack

/-! ## The live stack -/

/-- The live stack holds the return addresses of the open calls, oldest first. -/
theorem Chronicle.exists_openCalls {m : Machine} {past : List Deed} (hm : m.Chronicle past) :
    ∃ calls, OpenCalls (sinceLoad past) calls ∧
      m.stack.toList.map UInt16.toNat = calls.map Deed.returnAddress := by
  apply hm.sinceLoad_invariant (P := fun _ recent m => ∃ calls, OpenCalls recent calls ∧
    m.stack.toList.map UInt16.toNat = calls.map Deed.returnAddress)
  · intro program random
    exact ⟨[], .none .nil, rfl⟩
  · rintro - d recent hloaded ⟨calls, hcalls, hbefore⟩
    cases d.stackChange with
    | called hcall hpc hstack =>
      refine ⟨calls ++ [d], .call .nil hcall hcalls, ?_⟩
      rw [hstack, List.map_append, List.map_append, hbefore]
      exact congrArg (_ ++ [·]) (toNat_pc_add_two hpc)
    | returned hret hstack =>
      -- There was an address on the stack, so there was an open call.
      rw [hstack, List.map_append, eq_comm, List.map_eq_append_iff] at hbefore
      obtain ⟨older, newest, rfl, holder, hnewest⟩ := hbefore
      obtain ⟨c, rfl, -⟩ := List.map_eq_singleton_iff.mp hnewest
      exact ⟨older, hcalls.returned hret, holder.symm⟩
    | emptied hprogram =>
      rw [hloaded] at hprogram
      cases hprogram
    | kept hcall hret hstack =>
      rw [hstack]
      exact ⟨calls, hcalls.other hcall hret, hbefore⟩

/-! ## From a call to its return -/

/-- What lies at the bottom of the stack stays there while the stack is as deep as that. -/
theorem Deed.bottom_retained {d : Deed} {bottom : List Word}
    (hbottom : bottom <+: d.before.stack.toList) (hdeep : bottom.length ≤ d.after.stack.depth) :
    bottom <+: d.after.stack.toList := by
  cases d.stackChange with
  | called _ _ hstack =>
    rw [hstack]
    exact hbottom.trans (List.prefix_append _ _)
  | returned _ hstack =>
    rw [hstack] at hbottom
    apply List.prefix_of_prefix_length_le hbottom (List.prefix_append _ _)
    rwa [CallStack.length_toList]
  | emptied _ _ _ hstack =>
    -- An empty stack is deep enough for an empty bottom only.
    rw [← CallStack.length_toList, hstack, List.length_nil, Nat.le_zero] at hdeep
    rw [List.length_eq_zero_iff.mp hdeep]
    exact List.nil_prefix
  | kept _ _ hstack =>
    rw [hstack]
    exact hbottom

/-- The bottom of a stack that is never less deep than that stays through every history. -/
theorem stack_retained {m : Machine} {bottom : List Word} {actions : List Action}
    (hbottom : bottom <+: m.stack.toList)
    (hdeep : ∀ done, done <+: actions → bottom.length ≤ (m.acts done).stack.depth) :
    bottom <+: (m.acts actions).stack.toList := by
  -- The prefix is the invariant. The depth alone would not do, as it says nothing of the addresses.
  induction actions generalizing m with
  | nil => exact hbottom
  | cons a actions ih =>
    have hdeepA : bottom.length ≤ (m.act a).stack.depth :=
      hdeep [a] (List.cons_prefix_cons.mpr ⟨rfl, List.nil_prefix⟩)
    apply ih (Deed.bottom_retained (d := ⟨m, a⟩) hbottom hdeepA)
    intro done hdone
    exact hdeep (a :: done) (List.cons_prefix_cons.mpr ⟨rfl, hdone⟩)

/-- After a call, the return that leads back to the depth before it goes on behind the call, and
leaves the stack as it was before the call, if the stack was deeper than that in between. -/
theorem return_to_call {m n : Machine} {actions : List Action} (hcall : m.Performs .call)
    (hn : m.step.machine.acts actions = n)
    (hdeep : ∀ done, done <+: actions →
      m.stack.depth < (m.step.machine.acts done).stack.depth)
    (hret : n.Performs .ret) (hback : n.step.machine.stack.depth = m.stack.depth) :
    n.step.machine.pc.toNat = m.pc.toNat + 2 ∧ n.step.machine.stack.toList = m.stack.toList := by
  cases (Deed.mk m .step).stackChange with
  | called _ hpc hpushed =>
    cases (Deed.mk n .step).stackChange with
    | returned _ hpopped =>
      change m.step.machine.stack.toList = m.stack.toList ++ [m.pc + 2] at hpushed
      change n.stack.toList = n.step.machine.stack.toList ++ [n.step.machine.pc] at hpopped
      -- What the call left on the stack is still there when the return comes.
      have hkept : m.stack.toList ++ [m.pc + 2] <+: n.stack.toList := by
        rw [← hn]
        apply stack_retained
        · exact ⟨[], by rw [List.append_nil, hpushed]⟩
        · intro done hdone
          rw [List.length_append, CallStack.length_toList]
          exact hdeep done hdone
      -- It is all that is there, for otherwise the return would not lead back to this depth.
      have hlength : (m.stack.toList ++ [m.pc + 2]).length = n.stack.toList.length := by
        rw [hpopped, List.length_append, List.length_append, CallStack.length_toList,
          CallStack.length_toList, hback]
        rfl
      have hall := hkept.eq_of_length hlength
      rw [hpopped] at hall
      obtain ⟨hstack, hpcs⟩ := List.append_inj' hall rfl
      rw [← toNat_pc_add_two hpc, List.singleton_inj.mp hpcs]
      exact ⟨rfl, hstack.symm⟩
    | called hcalled => cases Deed.Performs.unique (d := ⟨n, .step⟩) hret hcalled
    | emptied _ haction => cases haction
    | kept _ hnot => exact absurd hret hnot
  | returned hreturned => cases Deed.Performs.unique (d := ⟨m, .step⟩) hcall hreturned
  | emptied _ haction => cases haction
  | kept hnot => exact absurd hcall hnot

/-! ## Failures -/

/-- A call fails when the stack is full, and only then. -/
theorem call_fails_iff {m : Machine} {i : Instruction} (hrun : m.halted = false)
    (h : m.instruction? = some i) (hi : i.operation = .call) (fault : Fault) :
    m.step.verdict = .error fault ↔ m.stack.depth = 76 ∧ fault = .stackOverflow 76 := by
  have hle := m.stack.depth_le
  rw [step_verdict_eq_error_iff, fault?_of_instruction? hrun h, performFault?, hi]
  by_cases hroom : m.stack.depth < 76
  · simp [hroom, Nat.ne_of_lt hroom]
  · simp [show m.stack.depth = 76 by omega, eq_comm]

/-- A return fails when the stack is empty, and only then. -/
theorem ret_fails_iff {m : Machine} {i : Instruction} (hrun : m.halted = false)
    (h : m.instruction? = some i) (hi : i.operation = .ret) (fault : Fault) :
    m.step.verdict = .error fault ↔ m.stack.depth = 0 ∧ fault = .stackUnderflow := by
  rw [step_verdict_eq_error_iff, fault?_of_instruction? hrun h, performFault?, hi]
  by_cases hempty : m.stack.depth = 0
  · simp [hempty, eq_comm]
  · simp [hempty]

/-! ## All histories -/

/-- **Calls and returns match.**

1. The live stack, oldest first, holds the address two behind each call since the last load that no
   return matches, and there is one way to match them.
2. A return that leads back to the depth before a call, after a stretch in which the stack was
   deeper than that throughout, goes on behind the call, and the stack is again what it was.
3. A call fails when the stack is full, a return when it is empty, and never otherwise.
4. Nothing but a call, a return and a load that is not refused does anything to the stack, the
   addresses left behind above it included. -/
theorem calls_match_returns {m : Machine} {past : List Deed} (hm : m.Chronicle past) :
    (∃ calls, OpenCalls (sinceLoad past) calls ∧
      (∀ others, OpenCalls (sinceLoad past) others → others = calls) ∧
      m.stack.toList.map UInt16.toNat = calls.map Deed.returnAddress) ∧
    (∀ actions n, m.Performs .call → m.step.machine.acts actions = n →
      (∀ done, done <+: actions → m.stack.depth < (m.step.machine.acts done).stack.depth) →
      n.Performs .ret → n.step.machine.stack.depth = m.stack.depth →
      n.step.machine.pc.toNat = m.pc.toNat + 2 ∧
        n.step.machine.stack.toList = m.stack.toList) ∧
    (∀ i, m.halted = false → m.instruction? = some i →
      (i.operation = .call → ∀ fault,
        m.step.verdict = .error fault ↔ m.stack.depth = 76 ∧ fault = .stackOverflow 76) ∧
      (i.operation = .ret → ∀ fault,
        m.step.verdict = .error fault ↔ m.stack.depth = 0 ∧ fault = .stackUnderflow)) ∧
    ∀ a : Action,
      (m.act a).stack = m.stack ∨
        a = .step ∧ (m.Performs .call ∨ m.Performs .ret) ∨
        ∃ program, a = .load program ∧ program.size ≤ 3584 := by
  refine ⟨?_, ?_, ?_, ?_⟩
  · obtain ⟨calls, hcalls, hstack⟩ := hm.exists_openCalls
    refine ⟨calls, hcalls, fun others hothers => ?_, hstack⟩
    rw [hothers.eq_unmatched, hcalls.eq_unmatched]
  · intro actions n hcall hn hdeep hret hback
    exact return_to_call hcall hn hdeep hret hback
  · intro i hrun hi
    exact ⟨call_fails_iff hrun hi, ret_fails_iff hrun hi⟩
  · intro a
    have hstep {op : Operation} (h : (Deed.mk m a).Performs op) : a = .step ∧ m.Performs op := by
      cases a with
      | step => exact ⟨rfl, h⟩
      | _ => exact absurd h (Deed.not_performs rfl op)
    cases (Deed.mk m a).stackChange with
    | called hcall => exact .inr (.inl ⟨(hstep hcall).1, .inl (hstep hcall).2⟩)
    | returned hret => exact .inr (.inl ⟨(hstep hret).1, .inr (hstep hret).2⟩)
    | emptied _ haction hsize => exact .inr (.inr ⟨_, haction, hsize⟩)
    | kept _ _ hstack => exact .inl hstack

/-- At 0x200 it calls 0x204, where it calls 0x208 and then returns. At 0x208 it returns at once. -/
def nestedProgram : Array UInt8 := #[0x22, 0x04, 0x12, 0x02, 0x22, 0x08, 0x00, 0xEE, 0x00, 0xEE]

/-- A machine somewhere in the program. -/
def inNested (stack : CallStack) (pc : Word) : Machine :=
  { fresh (.image nestedProgram) (.ofSeed 0) with stack := stack, pc := pc }

theorem step_inNested (stack : CallStack) (pc : Word) {k : Nat} {i : Instruction}
    (hpc : pc.toNat = 0x200 + k) (hk : k + 1 < nestedProgram.size)
    (hdecode : Instruction.decode (.ofBytes nestedProgram[k] nestedProgram[k + 1]) = some i)
    (hok : ((inNested stack pc).perform i).verdict = .ok .continued) :
    (inNested stack pc).performed? = some i ∧
      (inNested stack pc).step.machine = ((inNested stack pc).perform i).machine := by
  apply performed?_of_perform rfl _ hdecode hok
  change (Memory.image nestedProgram).word pc.toNat = _
  rw [hpc]
  exact Memory.word_image (by decide) hk

/-- The stack behind the first call. -/
def oneCall : CallStack := { slots := CallStack.empty.slots.set 0 0x202, depth := 1 }

/-- The stack behind the second call, of which the first `depth` addresses are live. -/
def twoCalls (depth : Fin 3) : CallStack :=
  { slots := oneCall.slots.set 1 0x206, depth := depth.val }

theorem step_firstCall : (inNested .empty 0x200).Performs .call ∧
    (inNested .empty 0x200).step.machine = inNested oneCall 0x204 := by
  obtain ⟨hperformed, hmachine⟩ := step_inNested .empty 0x200 (k := 0)
    (i := { operation := .call, immediate := 0x204 }) rfl (by decide) (by decide) rfl
  exact ⟨congrArg (Option.map _) hperformed, hmachine⟩

theorem step_secondCall : (inNested oneCall 0x204).Performs .call ∧
    (inNested oneCall 0x204).step.machine = inNested (twoCalls 2) 0x208 := by
  obtain ⟨hperformed, hmachine⟩ := step_inNested oneCall 0x204 (k := 4)
    (i := { operation := .call, immediate := 0x208 }) rfl (by decide) (by decide) rfl
  exact ⟨congrArg (Option.map _) hperformed, hmachine⟩

theorem step_firstReturn : (inNested (twoCalls 2) 0x208).Performs .ret ∧
    (inNested (twoCalls 2) 0x208).step.machine = inNested (twoCalls 1) 0x206 := by
  obtain ⟨hperformed, hmachine⟩ := step_inNested (twoCalls 2) 0x208 (k := 8)
    (i := { operation := .ret }) rfl (by decide) (by decide) rfl
  exact ⟨congrArg (Option.map _) hperformed, hmachine⟩

theorem step_secondReturn : (inNested (twoCalls 1) 0x206).Performs .ret ∧
    (inNested (twoCalls 1) 0x206).step.machine = inNested (twoCalls 0) 0x202 := by
  obtain ⟨hperformed, hmachine⟩ := step_inNested (twoCalls 1) 0x206 (k := 6)
    (i := { operation := .ret }) rfl (by decide) (by decide) rfl
  exact ⟨congrArg (Option.map _) hperformed, hmachine⟩

/-- What was done to the machine in front of the second return. -/
def nestedPast : List Deed :=
  [⟨inNested (twoCalls 2) 0x208, .step⟩, ⟨inNested oneCall 0x204, .step⟩,
    ⟨inNested .empty 0x200, .step⟩, ⟨powerOn (.ofSeed 0), .load nestedProgram⟩]

theorem chronicle_firstCall :
    (inNested .empty 0x200).Chronicle [⟨powerOn (.ofSeed 0), .load nestedProgram⟩] := by
  have hstart : inNested .empty 0x200 = fresh (.image nestedProgram) (.ofSeed 0) := rfl
  have hload : (powerOn (.ofSeed 0)).act (.load nestedProgram)
      = fresh (.image nestedProgram) (.ofSeed 0) := act_load_of_le _ (by decide)
  rw [hstart, ← hload]
  exact (Chronicle.powerOn _).act _

theorem chronicle_nestedPast : (inNested (twoCalls 1) 0x206).Chronicle nestedPast := by
  have hfirst := chronicle_firstCall.act .step
  rw [act, step_firstCall.2] at hfirst
  have hsecond := hfirst.act .step
  rw [act, step_secondCall.2] at hsecond
  have hthird := hsecond.act .step
  rwa [act, step_firstReturn.2] at hthird

/-- In front of the second return the first call is open. The return goes on behind it, although
another call was made in between. -/
theorem calls_match_returns_nested :
    ((inNested (twoCalls 1) 0x206).Chronicle nestedPast ∧
      ∃ calls, OpenCalls (sinceLoad nestedPast) calls ∧
        [0x202] = calls.map Deed.returnAddress) ∧
    (inNested .empty 0x200).Performs .call ∧
      (inNested .empty 0x200).step.machine.acts [.step, .step]
        = inNested (twoCalls 1) 0x206 ∧
      (inNested (twoCalls 1) 0x206).Performs .ret ∧
      (inNested (twoCalls 1) 0x206).step.machine.pc.toNat = 0x202 ∧
      (inNested (twoCalls 1) 0x206).step.machine.stack.toList = [] := by
  obtain ⟨⟨calls, hcalls, -, hstack⟩, -, -, -⟩ := calls_match_returns chronicle_nestedPast
  have hacts : (inNested .empty 0x200).step.machine.acts [.step, .step]
      = inNested (twoCalls 1) 0x206 := by
    rw [acts_cons, acts_cons, acts_nil, act, act, step_firstCall.2, step_secondCall.2,
      step_firstReturn.2]
  have hdeep : ∀ done, done <+: [Action.step, .step] →
      0 < ((inNested .empty 0x200).step.machine.acts done).stack.depth := by
    intro done hdone
    rcases List.prefix_cons_iff.mp hdone with rfl | ⟨rest, rfl, hrest⟩
    · rw [acts_nil, step_firstCall.2]
      exact Nat.one_pos
    · rcases List.prefix_cons_iff.mp hrest with rfl | ⟨rest, rfl, hnone⟩
      · rw [acts_cons, acts_nil, act, step_firstCall.2, step_secondCall.2]
        exact Nat.two_pos
      · obtain rfl := List.prefix_nil.mp hnone
        rw [hacts]
        exact Nat.one_pos
  have hback : (inNested (twoCalls 1) 0x206).step.machine.stack.depth = 0 := by
    rw [step_secondReturn.2]
    rfl
  obtain ⟨-, hreturn, -, -⟩ := calls_match_returns chronicle_firstCall
  obtain ⟨hpc, hempty⟩ :=
    hreturn [.step, .step] _ step_firstCall.1 hacts hdeep step_secondReturn.1 hback
  exact ⟨⟨chronicle_nestedPast, calls, hcalls, hstack⟩, step_firstCall.1, hacts,
    step_secondReturn.1, hpc, hempty⟩

end ChipEight.Machine
