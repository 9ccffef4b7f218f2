import ChipEight.Fault

/-!
# Guarded operations

Some operations are meant for a part of their arguments only. An index has to be in range, a block
has to be as long as the place that it goes to, a sum has to fit its type. In the definitions of the
machine the types see to that, so that it cannot be seen there that such an operation is always
applied within its domain. The operations of this module take plain numbers instead. They look at
their arguments when they are applied, and a computation in which one of them is applied outside its
domain comes to a halt with the violation.

A violation is not a fault. A fault is an answer that a host gets about its program; a violation
would be an error of the machine.

## Main definitions

- `Violation`: an operation that was applied outside its domain
- `Guarded`: computations that can end with a violation or a fault
- `Guarded.attempt`: the answer of a computation, which may be a fault but not a violation

## Main statements

- one lemma for each operation: what it yields within its domain
-/

namespace ChipEight

/-- How an operation was applied outside its domain. -/
inductive Violation where
  -- A byte was taken for a nibble.
  | wideNibble (byte : UInt8)
  | overflow (value : Nat)
  | wideShift (amount : Nat)
  | outOfRange (index length : Nat)
  | badSlice (start stop length : Nat)
  | unequalLengths (target source : Nat)
  -- A pixel was to be inverted that is not on the screen.
  | offScreen (x y : Nat)
  deriving DecidableEq, Repr

/-- How a guarded computation ends early. -/
inductive Exit where
  | violation (violation : Violation)
  | fault (fault : Fault)
  deriving DecidableEq, Repr

/-- Computations whose operations look at their arguments. -/
abbrev Guarded := Except Exit

namespace Guarded

variable {α β : Type} {n : Nat}

def violate (violation : Violation) : Guarded α := .error (.violation violation)

def fail (fault : Fault) : Guarded α := .error (.fault fault)

/-- The result of something that can only fail. -/
def ofFault : Except Fault α → Guarded α
  | .ok a => .ok a
  | .error fault => fail fault

/-- Ends with the fault of a computation as its answer. A violation is no answer. -/
def attempt : Guarded α → Guarded (Except Fault α)
  | .ok a => .ok (.ok a)
  | .error (.fault fault) => .ok (.error fault)
  | .error (.violation violation) => violate violation

@[simp] theorem ok_bind (a : α) (f : α → Guarded β) : (Except.ok a : Guarded α) >>= f = f a := rfl

@[simp] theorem fail_bind (fault : Fault) (f : α → Guarded β) :
    (fail fault : Guarded α) >>= f = fail fault := rfl

@[simp] theorem pure_eq_ok (a : α) : (pure a : Guarded α) = .ok a := rfl

@[simp] theorem attempt_ofFault (result : Except Fault α) :
    attempt (ofFault result) = .ok result := by
  cases result <;> rfl

/-! ## Numbers -/

/-- A byte as a nibble. -/
def nibble (byte : UInt8) : Guarded UInt8 :=
  if byte ≤ 0x0F then .ok byte else violate (.wideNibble byte)

/-- A sum or product as a count, of which the machine of the host has 64 bits. -/
def size (value : Nat) : Guarded Nat :=
  if value < UInt64.size then .ok value else violate (.overflow value)

/-- A count as a word. -/
def word (value : Nat) : Guarded Word :=
  if value < UInt16.size then .ok (.ofNat value) else violate (.overflow value)

/-- The bits of a byte, moved to the right. -/
def shiftRight (byte : UInt8) (amount : Nat) : Guarded UInt8 :=
  if amount < 8 then .ok (byte >>> UInt8.ofNat amount) else violate (.wideShift amount)

theorem nibble_of_le {byte : UInt8} (h : byte ≤ 0x0F) : nibble byte = .ok byte := if_pos h

theorem size_of_lt {value : Nat} (h : value < 0x10000000000000000) : size value = .ok value :=
  if_pos h

theorem word_of_lt {value : Nat} (h : value < 0x10000) : word value = .ok (.ofNat value) :=
  if_pos h

theorem shiftRight_of_lt {byte : UInt8} {amount : Nat} (h : amount < 8) :
    shiftRight byte amount = .ok (byte >>> UInt8.ofNat amount) := if_pos h

/-! ## Sequences -/

def index (values : Vector α n) (i : Nat) : Guarded α :=
  match values[i]? with
  | some a => .ok a
  | none => violate (.outOfRange i n)

def update (values : Vector α n) (i : Nat) (a : α) : Guarded (Vector α n) :=
  if h : i < n then .ok (values.set i a h) else violate (.outOfRange i n)

def item (values : List α) (i : Nat) : Guarded α :=
  match values[i]? with
  | some a => .ok a
  | none => violate (.outOfRange i values.length)

/-- The values from `start` on and before `stop`. -/
def slice (values : List α) (start stop : Nat) : Guarded (List α) :=
  if start ≤ stop ∧ stop ≤ values.length then
    .ok ((values.drop start).take (stop - start))
  else
    violate (.badSlice start stop values.length)

/-- Puts a block in place of the values from `start` on and before `stop`. -/
def overwrite (values : Vector α n) (start stop : Nat) (block : List α) : Guarded (Vector α n) :=
  if start ≤ stop ∧ stop ≤ n then
    if block.length = stop - start then
      .ok (.ofFn fun i : Fin n =>
        if start ≤ i.val then block[i.val - start]?.getD (values.get i) else values.get i)
    else
      violate (.unequalLengths (stop - start) block.length)
  else
    violate (.badSlice start stop n)

theorem index_of_lt {values : Vector α n} {i : Nat} (h : i < n) :
    index values i = .ok (values.get ⟨i, h⟩) := by
  rw [index, Vector.getElem?_eq_getElem h]
  rfl

theorem update_of_lt {values : Vector α n} {i : Nat} {a : α} (h : i < n) :
    update values i a = .ok (values.set i a h) := dif_pos h

theorem item_eq {values : List α} {i : Nat} {a : α} (h : values[i]? = some a) :
    item values i = .ok a := by
  rw [item, h]

theorem slice_of_le {values : List α} {start stop : Nat} (hstart : start ≤ stop)
    (hstop : stop ≤ values.length) :
    slice values start stop = .ok ((values.drop start).take (stop - start)) :=
  if_pos ⟨hstart, hstop⟩

theorem overwrite_of_length {values : Vector α n} {start stop : Nat} {block : List α}
    (hblock : start + block.length = stop) (hstop : stop ≤ n) :
    overwrite values start stop block = .ok (.ofFn fun i : Fin n =>
      if start ≤ i.val then block[i.val - start]?.getD (values.get i) else values.get i) := by
  rw [overwrite, if_pos ⟨by omega, hstop⟩, if_pos (by omega)]

end Guarded

end ChipEight
