import ChipEight.Screen

/-!
# Sprites

A sprite is a picture eight pixels wide and up to fifteen rows high, placed on the screen.
Drawing inverts the pixels under its set bits. A sprite that would stick out on the right
is moved to the left edge as a whole; rows below the bottom come in again at the top.

## Main definitions

- `Sprite`, `Sprite.place`: a sprite at its place
- `Sprite.cells`: the pixels under its set bits
- `Screen.draw`: the picture after drawing, and whether a lit pixel was erased
-/

namespace ChipEight

/-- Rows of eight pixels, a byte each, and where they stand on the screen. -/
structure Sprite where
  -- All eight columns are on the screen.
  left : Fin 57
  -- Rows are counted round the screen.
  top : Nat
  rows : List UInt8
  deriving DecidableEq, Repr

namespace Sprite

/-- A sprite at the coordinates asked for, or at the left edge if it would stick out on
the right. -/
def place (x y : Nat) (rows : List UInt8) : Sprite where
  left := if h : x < 57 then ⟨x, h⟩ else 0
  top := y
  rows := rows

/-- The pixel at column `c` of row `r` of the sprite. -/
def cell (s : Sprite) (r : Nat) (c : Fin 8) : Pixel where
  x := ⟨s.left.val + c.val, by have := s.left.isLt; have := c.isLt; omega⟩
  y := ⟨(s.top + r) % 32, Nat.mod_lt _ (by decide)⟩

/-- The pixels under the set bits of a byte that is row `r` of the sprite. -/
def rowCells (s : Sprite) (row : UInt8 × Nat) : List Pixel :=
  ((List.finRange 8).filter (bitOf row.1)).map (s.cell row.2)

/-- The pixels under all set bits of the sprite, row by row. -/
def cells (s : Sprite) : List Pixel := s.rows.zipIdx.flatMap s.rowCells

end Sprite

namespace Screen

/-- Inverts pixels one after the other, and says whether one of them was lit in its turn. -/
def flipAll (s : Screen) : List Pixel → Screen × Bool
  | [] => (s, false)
  | p :: ps =>
    let erased := s.lit p
    let rest := (s.flip p).flipAll ps
    (rest.1, erased || rest.2)

theorem flipAll_append (s : Screen) (pixels more : List Pixel) :
    s.flipAll (pixels ++ more) =
      (((s.flipAll pixels).1.flipAll more).1,
        (s.flipAll pixels).2 || ((s.flipAll pixels).1.flipAll more).2) := by
  induction pixels generalizing s with
  | nil => simp only [List.nil_append, flipAll, Bool.false_or]
  | cons p pixels ih => simp only [List.cons_append, flipAll, ih, Bool.or_assoc]

@[simp] theorem dirty_flipAll (s : Screen) (pixels : List Pixel) :
    (s.flipAll pixels).1.dirty = s.dirty := by
  induction pixels generalizing s with
  | nil => rfl
  | cons p pixels ih => rw [flipAll, ih, dirty_flip]

/-- The picture after drawing a sprite, and whether a lit pixel was erased. -/
def draw (s : Screen) (sprite : Sprite) : Screen × Bool :=
  let flipped := s.flipAll sprite.cells
  (flipped.1.markDirty, flipped.2)

end Screen

end ChipEight
