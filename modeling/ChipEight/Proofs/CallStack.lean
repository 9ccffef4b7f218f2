import ChipEight.CallStack

/-!
# The history of a call stack

A call stack answers pushes and pops as a list with room for 76 addresses would do. It grows and
shrinks at its end, and a request that is refused leaves it as it was.

What a list does not have are the slots above the depth. A pop leaves its address behind, and only a
push at the same depth writes over it. So each slot tells what was pushed last at its depth, and two
stacks are equal if they are equally deep and their histories left the same addresses in all slots.
That the live addresses are the same is less than that.

## Main definitions

- `CallStack.Request`, `CallStack.serve`: what a stack can be asked for, and its answer
- `CallStack.serveList`: the answer of a list
- `CallStack.served`, `CallStack.live`: the stack and the list after several requests
- `CallStack.lastPushed`: what was pushed last at a depth

## Main statements

- `CallStack.serve_eq`: one request to a stack and to the list of its live addresses
- `CallStack.getElem?_slots_serve`: the slots after one request
- `CallStack.getElem?_slots_served`, `CallStack.served_eq_iff`: what the slots remember
- `CallStack.refines_list`: a stack and a list over all requests
-/

namespace ChipEight.CallStack

/-! ## Requests -/

/-- What a stack can be asked for. -/
inductive Request where
  | push (address : Word)
  | pop
  deriving DecidableEq, Repr

/-- A fault, or the address that was taken off if that is what was asked for. -/
abbrev Answer := Except Fault (Option Word)

/-- The answer of a stack, and the stack afterwards. -/
def serve (s : CallStack) : Request → Answer × CallStack
  | .push address =>
    match s.push address with
    | .ok t => (.ok none, t)
    | .error fault => (.error fault, s)
  | .pop =>
    match s.pop with
    | .ok (address, t) => (.ok (some address), t)
    | .error fault => (.error fault, s)

/-- The answer of a list with room for 76 addresses, and the list afterwards. -/
def serveList (live : List Word) : Request → Answer × List Word
  | .push address =>
    if live.length < capacity then (.ok none, live ++ [address])
    else (.error (.stackOverflow capacity), live)
  | .pop =>
    match live.getLast? with
    | some address => (.ok (some address), live.dropLast)
    | none => (.error .stackUnderflow, live)

/-! ## One request -/

section

variable {s t : CallStack} {address : Word} {fault : Fault}

theorem depth_lt_of_push (h : s.push address = .ok t) : s.depth < 76 := by
  unfold push at h
  split at h
  · assumption
  · cases h

theorem getElem?_slots_push (h : s.push address = .ok t) (j : Nat) :
    t.slots[j]? = if s.depth = j then some address else s.slots[j]? := by
  have hroom := depth_lt_of_push h
  rw [push, dif_pos hroom] at h
  cases h
  by_cases hj : s.depth = j
  · subst hj
    rw [if_pos rfl, Vector.getElem?_set_self]
  · rw [if_neg hj, Vector.getElem?_set_ne hroom hj]

theorem slots_pop (h : s.pop = .ok (address, t)) : t.slots = s.slots := by
  unfold pop at h
  split at h
  · cases h
    rfl
  · cases h

theorem of_push_eq_error (h : s.push address = .error fault) :
    76 ≤ s.depth ∧ fault = .stackOverflow 76 := by
  unfold push at h
  split at h
  · cases h
  · rename_i hfull
    cases h
    exact ⟨Nat.not_lt.mp hfull, rfl⟩

theorem of_pop_eq_error (h : s.pop = .error fault) : s.depth = 0 ∧ fault = .stackUnderflow := by
  unfold pop at h
  split at h
  · cases h
  · rename_i hempty
    cases h
    exact ⟨Nat.eq_zero_of_not_pos hempty, rfl⟩

/-- Stacks are told by their slots and their depth. -/
theorem eq_of_slots (hslots : s.slots = t.slots) (hdepth : s.depth = t.depth) : s = t := by
  obtain ⟨_, _⟩ := s
  obtain ⟨_, _⟩ := t
  obtain rfl : _ = _ := hslots
  obtain rfl : _ = _ := hdepth
  rfl

end

variable (s : CallStack) (r : Request)

/-- A stack answers like the list of its live addresses. -/
theorem serve_eq : serveList s.toList r = ((s.serve r).1, (s.serve r).2.toList) := by
  cases r with
  | push address =>
    cases hpush : s.push address with
    | ok t =>
      have hroom := depth_lt_of_push hpush
      simp [serve, serveList, hpush, toList_push hpush, hroom]
    | error fault =>
      obtain ⟨hfull, rfl⟩ := of_push_eq_error hpush
      simp [serve, serveList, hpush, Nat.not_lt.mpr hfull]
  | pop =>
    cases hpop : s.pop with
    | ok popped =>
      obtain ⟨address, t⟩ := popped
      simp [serve, serveList, hpop, toList_pop hpop]
    | error fault =>
      obtain ⟨hempty, rfl⟩ := of_pop_eq_error hpop
      have hnil : s.toList = [] := by rw [toList, hempty, List.take_zero]
      simp [serve, serveList, hpop, hnil]

theorem serve_of_error {fault : Fault} (h : (s.serve r).1 = .error fault) :
    (s.serve r).2 = s := by
  cases r with
  | push address =>
    cases hpush : s.push address with
    | ok t => simp [serve, hpush] at h
    | error fault => simp [serve, hpush]
  | pop =>
    cases hpop : s.pop with
    | ok popped => simp [serve, hpop] at h
    | error fault => simp [serve, hpop]

/-- A slot is written by a push at its depth and by nothing else. -/
theorem getElem?_slots_serve {j : Nat} (hj : j < 76) :
    (s.serve r).2.slots[j]? =
      match r with
      | .push address => if s.depth = j then some address else s.slots[j]?
      | .pop => s.slots[j]? := by
  cases r with
  | push address =>
    cases hpush : s.push address with
    | ok t =>
      simp only [serve, hpush]
      exact getElem?_slots_push hpush j
    | error fault =>
      -- A full stack has no slot at its depth.
      have hfull := (of_push_eq_error hpush).1
      have hne : s.depth ≠ j := by omega
      simp [serve, hpush, hne]
  | pop =>
    cases hpop : s.pop with
    | ok popped =>
      obtain ⟨address, t⟩ := popped
      simp [serve, hpop, slots_pop hpop]
    | error fault => simp [serve, hpop]

/-! ## Several requests

A history begins with its newest request. -/

/-- The stack after several requests. -/
def served : (history : List Request) → CallStack
  | [] => empty
  | r :: history => ((served history).serve r).2

/-- The list after the same requests. -/
def live : (history : List Request) → List Word
  | [] => []
  | r :: history => (serveList (live history) r).2

/-- The address of the newest push that was made at depth `j` and not refused, or zero if there is
none. -/
def lastPushed (j : Nat) : (history : List Request) → Word
  | [] => 0
  | .push address :: history =>
    if (live history).length = j ∧ j < capacity then address else lastPushed j history
  | .pop :: history => lastPushed j history

section

variable (history others : List Request)

theorem toList_served : (served history).toList = live history := by
  induction history with
  | nil => rfl
  | cons r history ih =>
    have hserve := serve_eq (served history) r
    rw [ih] at hserve
    rw [live, hserve]
    rfl

theorem depth_served : (served history).depth = (live history).length := by
  rw [← toList_served, length_toList]

/-- A slot holds what was pushed last at its depth. -/
theorem getElem?_slots_served {j : Nat} (hj : j < 76) :
    (served history).slots[j]? = some (lastPushed j history) := by
  induction history with
  | nil =>
    rw [served, empty, lastPushed, Vector.getElem?_replicate, if_pos hj]
  | cons r history ih =>
    rw [served, getElem?_slots_serve _ _ hj]
    cases r with
    | push address =>
      -- A push at this depth is not refused, since there is a slot for it.
      by_cases hdepth : (live history).length = j
      · simp [lastPushed, depth_served, hdepth, hj]
      · simp [lastPushed, depth_served, hdepth, ih]
    | pop => exact ih

theorem served_eq_iff :
    served history = served others ↔
      (live history).length = (live others).length ∧
        ∀ j < 76, lastPushed j history = lastPushed j others := by
  rw [← depth_served, ← depth_served]
  constructor
  · intro h
    refine ⟨by rw [h], fun j hj => ?_⟩
    apply Option.some.inj
    rw [← getElem?_slots_served _ hj, h, getElem?_slots_served _ hj]
  · rintro ⟨hdepth, hpushed⟩
    have hslots : (served history).slots = (served others).slots := by
      apply Vector.ext
      intro j hj
      apply Option.some.inj
      rw [← Vector.getElem?_eq_getElem hj, ← Vector.getElem?_eq_getElem hj,
        getElem?_slots_served _ hj, getElem?_slots_served _ hj, hpushed j hj]
    exact eq_of_slots hslots hdepth

end

/-- **A call stack is a list with room for 76 addresses, and remembers what it dropped.** Whatever
was asked of it before, it answers the next request as the list does, and depth, emptiness and live
addresses are those of the list. A request that is refused changes nothing. Each slot holds the
address that was pushed last at its depth, or zero. So two stacks are equal if their lists have the
same length and the same was pushed last at each depth. Equal stacks have the same live addresses,
but stacks with the same live addresses may differ. -/
theorem refines_list (history others : List Request) :
    (∀ r, ((served history).serve r).1 = (serveList (live history) r).1) ∧
      (served history).depth = (live history).length ∧
      (served history).isEmpty = (live history).isEmpty ∧
      (served history).toList = live history ∧
      (∀ r fault, ((served history).serve r).1 = .error fault →
        served (r :: history) = served history) ∧
      (∀ j < 76, (served history).slots[j]? = some (lastPushed j history)) ∧
      ((served history == served others) = true ↔
        (live history).length = (live others).length ∧
          ∀ j < 76, lastPushed j history = lastPushed j others) ∧
      ((served history == served others) = true → live history = live others) ∧
      ∃ one another, live one = live another ∧ (served one == served another) = false := by
  refine ⟨?_, depth_served history, ?_, toList_served history, ?_, ?_, ?_, ?_, ?_⟩
  · intro r
    rw [← toList_served, serve_eq]
  · rw [← toList_served, isEmpty_toList, isEmpty]
  · exact fun r fault h => serve_of_error _ r h
  · exact fun j hj => getElem?_slots_served history hj
  · rw [beq_iff_eq, served_eq_iff]
  · intro h
    rw [← toList_served, ← toList_served, beq_iff_eq.mp h]
  · -- A push that was taken back is still seen in its slot.
    refine ⟨[.pop, .push 0x202], [], rfl, ?_⟩
    rw [beq_eq_false_iff_ne, ne_eq, served_eq_iff]
    intro h
    exact absurd (h.2 0 (by decide)) (by decide)

/-- An address that was taken off is still in its slot when nothing more can be taken off. -/
theorem refines_list_takenOff :
    ((served [.pop, .push 0x202]).serve .pop).1 = .error .stackUnderflow ∧
      served [.pop, .pop, .push 0x202] = served [.pop, .push 0x202] ∧
      (served [.pop, .push 0x202]).slots[0]? = some 0x202 := by
  obtain ⟨hanswer, -, -, -, hrefused, hslots, -⟩ := refines_list [.pop, .push 0x202] []
  have hunderflow : ((served [.pop, .push 0x202]).serve .pop).1 = .error .stackUnderflow :=
    hanswer .pop
  exact ⟨hunderflow, hrefused .pop _ hunderflow, hslots 0 (by decide)⟩

end ChipEight.CallStack
