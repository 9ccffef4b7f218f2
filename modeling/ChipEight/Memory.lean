import ChipEight.Fault
import ChipEight.Memory.Glyphs

/-!
# Memory

4096 bytes, read and written in blocks. A block that does not fit is refused as a whole
and nothing is written; the fault names the first address of the block that lies outside,
which for an empty block is where it starts.

## Main definitions

- `Memory`: the bytes
- `Memory.read`, `Memory.write`, `Memory.word`: checked access
- `Memory.withGlyphs`: memory as it is before a program is loaded
- `Memory.load`: memory with a program in it

## Main statements

- `Memory.getElem_put`: what a write does to each byte
- `Memory.read_write`: a block that was written is read back
- `Memory.word_load`: the words of a program that was loaded
-/

namespace ChipEight

structure Memory where
  bytes : Vector UInt8 4096
  deriving DecidableEq

namespace Memory

/-- The fault of an access that starts at `start` and runs out of memory. -/
def outside (start : Nat) : Fault := .outOfBounds (max start AddressSpace.size)

/-- The `len` bytes from `start` on. -/
def read (m : Memory) (start len : Nat) : Except Fault (List UInt8) :=
  if h : start + len ≤ 4096 then
    .ok (List.ofFn fun i : Fin len => m.bytes[start + i.val])
  else
    .error (outside start)

/-- The word whose high byte is at `start`. -/
def word (m : Memory) (start : Nat) : Except Fault Word :=
  if h : start + 2 ≤ 4096 then
    .ok (.ofBytes m.bytes[start] m.bytes[start + 1])
  else
    .error (outside start)

/-- Replaces the bytes from `start` on by a block that fits. -/
def put (m : Memory) (start : Nat) : (block : List UInt8) →
    start + block.length ≤ 4096 → Memory
  | [], _ => m
  | b :: block, h =>
    have h' : start + (block.length + 1) ≤ 4096 := h
    put { bytes := m.bytes.set start b } (start + 1) block (by omega)

/-- Replaces the bytes from `start` on, or refuses. -/
def write (m : Memory) (start : Nat) (block : List UInt8) : Except Fault Memory :=
  if h : start + block.length ≤ 4096 then .ok (m.put start block h) else .error (outside start)

def zero : Memory where
  bytes := Vector.replicate 4096 0

/-- The glyphs in their place, and zero elsewhere. -/
def withGlyphs : Memory := zero.put Glyphs.start Glyphs.rows (by decide)

/-- The glyphs and a program in their places, and zero elsewhere. -/
def load (program : List UInt8) (h : program.length ≤ AddressSpace.programCapacity) : Memory :=
  withGlyphs.put AddressSpace.programStart program (by
    simp only [AddressSpace.programStart, AddressSpace.programCapacity] at *; omega)

/-- A write changes the bytes of its block and no other. -/
theorem getElem_put (m : Memory) (start : Nat) (block : List UInt8)
    (h : start + block.length ≤ 4096) (a : Nat) (ha : a < 4096) :
    (m.put start block h).bytes[a] =
      if hb : start ≤ a ∧ a - start < block.length then block[a - start] else m.bytes[a] := by
  induction block generalizing m start with
  | nil => simp [put]
  | cons b block ih =>
    rw [put, ih]
    simp only [List.length_cons, Vector.getElem_set]
    by_cases hs : start = a
    · subst hs
      simp only [Nat.sub_self, List.getElem_cons_zero]
      split <;> split <;> first | rfl | omega | simp_all
    · by_cases hlt : start < a
      · obtain ⟨k, rfl⟩ : ∃ k, a = start + 1 + k := ⟨a - start - 1, by omega⟩
        have h₁ : start + 1 + k - (start + 1) = k := by omega
        have h₂ : start + 1 + k - start = k + 1 := by omega
        simp only [h₁, h₂, List.getElem_cons_succ]
        split <;> split <;> first | rfl | omega
      · split <;> split <;> first | rfl | omega

theorem read_write {m n : Memory} {start : Nat} {block : List UInt8}
    (h : m.write start block = .ok n) : n.read start block.length = .ok block := by
  unfold write at h
  split at h
  · rename_i hb
    cases h
    rw [read, dif_pos hb]
    congr 1
    apply List.ext_getElem (by simp)
    intro i h₁ h₂
    simp [getElem_put]
  · cases h

/-- A loaded program stands in memory from where programs start. -/
theorem word_load (program : List UInt8) (h : program.length ≤ AddressSpace.programCapacity)
    {i : Nat} (hi : i + 1 < program.length) :
    (load program h).word (AddressSpace.programStart + i)
      = .ok (.ofBytes program[i] program[i + 1]) := by
  have hin : AddressSpace.programStart + i + 2 ≤ 4096 := by
    simp only [AddressSpace.programStart, AddressSpace.programCapacity] at *
    omega
  have hlt : i < program.length := by omega
  rw [word, dif_pos hin]
  simp [load, getElem_put, hi, hlt, Nat.add_assoc]

end Memory

end ChipEight
