import ChipEight.Fault

/-!
# The call stack

A stack of at most 76 return addresses. The addresses stand in slots; the depth says how
many of them are live. Returning only lowers the depth, so a slot above it keeps the
address last stored there. Two stacks are equal when all their slots are, the ones above
the depth included.

## Main definitions

- `CallStack`: the slots and the depth
- `CallStack.toList`: the live addresses, oldest first
- `CallStack.push`, `CallStack.pop`: one call and one return

## Main statements

- `CallStack.toList_push`, `CallStack.toList_pop`: a push appends to the live addresses and
  a pop takes the last one away
-/

namespace ChipEight

/-- Return addresses in slots, of which the first `depth` are live. -/
structure CallStack where
  slots : Vector Word 76
  depth : Nat
  depth_le : depth ≤ 76 := by omega
  deriving DecidableEq

namespace CallStack

/-- How many return addresses fit. -/
abbrev capacity : Nat := 76

/-- No live address, and zero in every slot. -/
def empty : CallStack where
  slots := Vector.replicate 76 0
  depth := 0

/-- The live addresses, oldest first. -/
def toList (s : CallStack) : List Word := s.slots.toList.take s.depth

def isEmpty (s : CallStack) : Bool := s.depth == 0

def push (s : CallStack) (address : Word) : Except Fault CallStack :=
  if h : s.depth < 76 then
    .ok { slots := s.slots.set s.depth address, depth := s.depth + 1 }
  else
    .error (.stackOverflow capacity)

/-- Takes the newest return address off, leaving it behind in its slot. -/
def pop (s : CallStack) : Except Fault (Word × CallStack) :=
  if h : 0 < s.depth then
    have hle : s.depth - 1 < 76 := by have := s.depth_le; omega
    .ok (s.slots[s.depth - 1], { s with depth := s.depth - 1, depth_le := by omega })
  else
    .error .stackUnderflow

@[simp] theorem toList_empty : empty.toList = [] := rfl

@[simp] theorem length_toList (s : CallStack) : s.toList.length = s.depth := by
  simp [toList, s.depth_le]

theorem isEmpty_toList (s : CallStack) : s.toList.isEmpty = (s.depth == 0) := by
  rw [← s.length_toList]
  cases s.toList with
  | nil => rfl
  | cons _ _ => rfl

theorem toList_push {s t : CallStack} {address : Word} (h : s.push address = .ok t) :
    t.toList = s.toList ++ [address] := by
  unfold push at h
  split at h
  · rename_i hd
    cases h
    have hlen : s.depth < s.slots.toList.length := by simpa using hd
    simp only [toList, Vector.toList_set]
    rw [List.take_add_one, List.take_set_of_le (Nat.le_refl _)]
    simp [List.getElem?_set_self hlen]
  · cases h

theorem toList_pop {s t : CallStack} {address : Word} (h : s.pop = .ok (address, t)) :
    s.toList = t.toList ++ [address] := by
  have bound := s.depth_le
  unfold pop at h
  split at h
  · rename_i hd
    cases h
    obtain ⟨n, hn⟩ : ∃ n, s.depth = n + 1 := ⟨s.depth - 1, by omega⟩
    have hlen : n < s.slots.toList.length := by simp; omega
    simp only [toList, hn, Nat.add_sub_cancel]
    rw [List.take_add_one, List.getElem?_eq_getElem hlen]
    simp
  · cases h

end CallStack

end ChipEight
