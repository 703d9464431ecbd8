/-! The screen: 32 rows of 64 pixels, which only change by being cleared or by having a sprite
laid over them so that pixels lit in both go dark. -/

namespace Chip8

/-- Each row is one number, with the leftmost pixel in its most significant bit. -/
structure Screen where
  rows : Vector (BitVec 64) 32
  deriving DecidableEq

namespace Screen

def width : Nat := 64

def height : Nat := 32

def blank : Screen := ⟨.replicate 32 0⟩

def pixel (s : Screen) (row : Fin 32) (column : Fin 64) : Bool := s.rows[row].getMsbD column

def flip (s : Screen) (row : Fin 32) (column : Fin 64) : Screen :=
  ⟨s.rows.set row (s.rows[row] ^^^ BitVec.twoPow 64 (63 - column))⟩

/-- Flips the pixels under the set bits of a byte, from left to right and one at a time, and
notes whether one of them was lit. The right edge ends the row. -/
def drawByte (row : Fin 32) (start : Nat) (byte : UInt8) :
    List Nat → Screen × Bool → Screen × Bool
  | [], drawn => drawn
  | bit :: bits, (s, collision) =>
    if h : start + bit < 64 then
      if byte.toNat >>> (7 - bit) &&& 1 = 0 then drawByte row start byte bits (s, collision)
      else
        drawByte row start byte bits
          (s.flip row ⟨start + bit, h⟩, collision || s.pixel row ⟨start + bit, h⟩)
    else (s, collision)

def drawBytes (start : Nat) : Nat → List UInt8 → Screen × Bool → Screen × Bool
  | _, [], drawn => drawn
  | row, byte :: bytes, drawn =>
    if h : row < 32 then
      drawBytes start (row + 1) bytes (drawByte ⟨row, h⟩ start byte (List.range 8) drawn)
    else drawn

/-- The screen with a sprite laid over it, and whether that put a pixel out. The corner of the
sprite wraps around the screen. -/
def draw (s : Screen) (x y : UInt8) (bytes : List UInt8) : Screen × Bool :=
  drawBytes (x.toNat % width) (y.toNat % height) bytes (s, false)

end Screen

end Chip8
