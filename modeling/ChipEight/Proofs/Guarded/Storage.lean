import ChipEight.CallStack
import ChipEight.Memory
import ChipEight.Proofs.Guarded.Domain

/-!
# Guarded memory and call stack

Blocks of memory by the places where they start and stop, and a call stack whose depth is any
number. Whether a block is in memory is decided before it is touched, and that is what keeps the
guards of reading and writing from ever being needed.

## Main definitions

- `Memory.range`: where a block starts and stops, if it is in memory
- `PlainStack`: slots and a depth, with `push`, `pop` and the live addresses
- `CallStack.plain`: the plain form of a call stack

## Main statements

- `Memory.read_of_le`, `Memory.overwrite_range`: reading and writing a block of memory
- `PlainStack.push_plain`, `PlainStack.pop_plain`, `PlainStack.live_plain`: the depth stays within
  the slots
-/

namespace ChipEight

open Guarded

/-! ## Memory -/

namespace Memory

/-- Where a block of `len` bytes from `start` on starts and stops, if it is in memory. -/
def range (start len : Nat) : Guarded (Nat × Nat) := do
  let stop ← size (start + len)
  if AddressSpace.size < stop then
    fail (.outOfBounds (max start AddressSpace.size))
  else
    return (start, stop)

theorem range_of_le {start len : Nat} (h : start + len ≤ 4096) :
    range start len = .ok (start, start + len) := by
  rw [range, size_of_lt (by omega), ok_bind, if_neg (Nat.not_lt.mpr h)]
  rfl

theorem range_of_lt {start len : Nat} (h : 4096 < start + len)
    (hsize : start + len < 0x10000000000000000) : range start len = fail (outside start) := by
  rw [range, size_of_lt hsize, ok_bind, if_pos h]
  rfl

/-- A block that is in memory can be read, and it is what stands between its start and its stop. -/
theorem read_of_le (m : Memory) {start len : Nat} (h : start + len ≤ 4096) :
    ∃ block, m.read start len = .ok block ∧ block.length = len ∧
      slice m.bytes.toList start (start + len) = .ok block := by
  have hlength : m.bytes.toList.length = 4096 := Vector.length_toList
  refine ⟨_, dif_pos h, List.length_ofFn, ?_⟩
  rw [slice_of_le (by omega) (by omega), Nat.add_sub_cancel_left]
  refine congrArg Except.ok (List.ext_getElem ?_ fun i _ _ => ?_)
  · simp
    omega
  · simp

theorem read_of_lt (m : Memory) {start len : Nat} (h : 4096 < start + len) :
    m.read start len = .error (outside start) := dif_neg (Nat.not_le.mpr h)

theorem overwrite_range (m : Memory) {start : Nat} {block : List UInt8}
    (h : start + block.length ≤ 4096) :
    overwrite m.bytes start (start + block.length) block = .ok (m.put start block h).bytes := by
  rw [overwrite_of_length rfl h]
  refine congrArg Except.ok (Vector.ext fun a ha => ?_)
  -- A place is in the block, or before or behind it. Behind it the block has no byte for it.
  rw [Vector.getElem_ofFn, getElem_put]
  by_cases hb : start ≤ a ∧ a - start < block.length
  · rw [dif_pos hb, if_pos hb.1, List.getElem?_eq_getElem hb.2, Option.getD_some]
  · rw [dif_neg hb]
    split
    · rename_i hstart
      have hbehind : block.length ≤ a - start := Nat.not_lt.mp fun h => hb ⟨hstart, h⟩
      rw [List.getElem?_eq_none hbehind]
      rfl
    · rfl

end Memory

/-! ## The call stack -/

/-- Return addresses in slots, of which the first `depth` are live. -/
structure PlainStack where
  slots : Vector Word 76
  depth : Nat
  deriving DecidableEq

namespace PlainStack

variable (s : PlainStack)

def push (address : Word) : Guarded PlainStack := do
  if s.depth < CallStack.capacity then
    let slots ← update s.slots s.depth address
    let depth ← size (s.depth + 1)
    return { slots := slots, depth := depth }
  else
    fail (.stackOverflow CallStack.capacity)

def pop : Guarded (Word × PlainStack) := do
  if s.depth = 0 then
    fail .stackUnderflow
  else
    let address ← index s.slots (s.depth - 1)
    return (address, { s with depth := s.depth - 1 })

/-- The live addresses, oldest first. -/
def live : Guarded (List Word) := slice s.slots.toList 0 s.depth

end PlainStack

def CallStack.plain (s : CallStack) : PlainStack where
  slots := s.slots
  depth := s.depth

namespace PlainStack

variable (s : CallStack)

theorem push_plain (address : Word) :
    s.plain.push address = ofFault ((s.push address).map CallStack.plain) := by
  by_cases h : s.depth < 76
  · have hroom : s.plain.depth < CallStack.capacity := h
    have hdepth : size (s.plain.depth + 1) = .ok (s.plain.depth + 1) :=
      size_of_lt (Nat.lt_trans (Nat.succ_lt_succ h) (by decide))
    rw [push, if_pos hroom, update_of_lt hroom, ok_bind, hdepth, ok_bind, CallStack.push, dif_pos h]
    rfl
  · have hfull : ¬s.plain.depth < CallStack.capacity := h
    rw [push, if_neg hfull, CallStack.push, dif_neg h]
    rfl

theorem pop_plain :
    s.plain.pop = ofFault (s.pop.map fun popped => (popped.1, popped.2.plain)) := by
  have hle : s.plain.depth ≤ 76 := s.depth_le
  by_cases h : 0 < s.depth
  · have hlive : s.plain.depth ≠ 0 := Nat.pos_iff_ne_zero.mp h
    have hslot : s.plain.depth - 1 < 76 := by omega
    rw [pop, if_neg hlive, index_of_lt hslot, ok_bind, CallStack.pop, dif_pos h]
    rfl
  · have hempty : s.plain.depth = 0 := Nat.eq_zero_of_not_pos h
    rw [pop, if_pos hempty, CallStack.pop, dif_neg h]
    rfl

/-- The live addresses are in the slots, as the depth of a call stack goes no further. -/
theorem live_plain : s.plain.live = .ok s.toList := by
  have hstop : s.plain.depth ≤ s.plain.slots.toList.length := by
    rw [Vector.length_toList]
    exact s.depth_le
  rw [live, slice_of_le (Nat.zero_le _) hstop]
  rfl

example : (PlainStack.mk (Vector.replicate 76 0) 77).live = violate (.badSlice 0 77 76) := rfl

end PlainStack

end ChipEight
