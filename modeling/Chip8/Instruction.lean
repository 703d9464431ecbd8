import Chip8.Outcome

/-! The instructions of the machine, and how words select them. A word is cut into overlapping
fields, and the selection is total on fields, also on those that no word has.

An operand `x` or `y` names a register by its low four bits. Words only give operands below
sixteen, but an instruction may hold any byte there. -/

namespace Chip8

inductive Arithmetic where
  | copy
  | or
  | and
  | xor
  | add
  | subtract
  | shiftRight
  | subtractFrom
  | shiftLeft
  deriving DecidableEq, Repr

inductive Instruction where
  | clear                                       -- 00E0
  | ret                                         -- 00EE
  | jump (target : UInt16)                      -- 1NNN
  | call (target : UInt16)                      -- 2NNN
  | skipEqual (x byte : UInt8)                  -- 3XKK
  | skipUnequal (x byte : UInt8)                -- 4XKK
  | skipSame (x y : UInt8)                      -- 5XY0, whatever the last digit is
  | load (x byte : UInt8)                       -- 6XKK
  | add (x byte : UInt8)                        -- 7XKK
  | arithmetic (op : Arithmetic) (x y : UInt8)  -- 8XYN
  | skipDifferent (x y : UInt8)                 -- 9XY0, whatever the last digit is
  | setIndex (address : UInt16)                 -- ANNN
  | jumpOffset (base : UInt16)                  -- BNNN
  | random (x mask : UInt8)                     -- CXKK
  | draw (x y height : UInt8)                   -- DXYN
  | skipHeld (x : UInt8)                        -- EX9E
  | skipReleased (x : UInt8)                    -- EXA1
  | readDelay (x : UInt8)                       -- FX07
  | awaitKey (x : UInt8)                        -- FX0A
  | setDelay (x : UInt8)                        -- FX15
  | setSound (x : UInt8)                        -- FX18
  | addIndex (x : UInt8)                        -- FX1E
  | selectGlyph (x : UInt8)                     -- FX29
  | storeDigits (x : UInt8)                     -- FX33
  | storeRegisters (x : UInt8)                  -- FX55
  | loadRegisters (x : UInt8)                   -- FX65
  deriving DecidableEq, Repr

structure Fields where
  raw : UInt16
  i : UInt8
  x : UInt8
  y : UInt8
  n : UInt8
  nn : UInt8
  nnn : UInt16
  deriving DecidableEq, Repr

namespace Fields

def ofWord (word : UInt16) : Fields where
  raw := word
  i := (word >>> 12).toUInt8
  x := (word >>> 8 &&& 0xF).toUInt8
  y := (word >>> 4 &&& 0xF).toUInt8
  n := (word &&& 0xF).toUInt8
  nn := (word &&& 0xFF).toUInt8
  nnn := word &&& 0xFFF

def arithmetic? (f : Fields) : Option Arithmetic :=
  match f.n with
  | 0x0 => some .copy
  | 0x1 => some .or
  | 0x2 => some .and
  | 0x3 => some .xor
  | 0x4 => some .add
  | 0x5 => some .subtract
  | 0x6 => some .shiftRight
  | 0x7 => some .subtractFrom
  | 0xE => some .shiftLeft
  | _ => none

def miscellaneous? (f : Fields) : Option Instruction :=
  match f.nn with
  | 0x07 => some (.readDelay f.x)
  | 0x0A => some (.awaitKey f.x)
  | 0x15 => some (.setDelay f.x)
  | 0x18 => some (.setSound f.x)
  | 0x1E => some (.addIndex f.x)
  | 0x29 => some (.selectGlyph f.x)
  | 0x33 => some (.storeDigits f.x)
  | 0x55 => some (.storeRegisters f.x)
  | 0x65 => some (.loadRegisters f.x)
  | _ => none

/-- The instruction that the fields select. Everything above family `E` counts as family `F`,
and `raw` plays no part. -/
def instruction? (f : Fields) : Option Instruction :=
  match f.i with
  | 0x0 =>
    match f.nn with
    | 0xE0 => some .clear
    | 0xEE => some .ret
    | _ => none
  | 0x1 => some (.jump f.nnn)
  | 0x2 => some (.call f.nnn)
  | 0x3 => some (.skipEqual f.x f.nn)
  | 0x4 => some (.skipUnequal f.x f.nn)
  | 0x5 => some (.skipSame f.x f.y)
  | 0x6 => some (.load f.x f.nn)
  | 0x7 => some (.add f.x f.nn)
  | 0x8 => f.arithmetic?.map fun op => .arithmetic op f.x f.y
  | 0x9 => some (.skipDifferent f.x f.y)
  | 0xA => some (.setIndex f.nnn)
  | 0xB => some (.jumpOffset f.nnn)
  | 0xC => some (.random f.x f.nn)
  | 0xD => some (.draw f.x f.y f.n)
  | 0xE =>
    match f.nn with
    | 0x9E => some (.skipHeld f.x)
    | 0xA1 => some (.skipReleased f.x)
    | _ => none
  | _ => f.miscellaneous?

def decode (f : Fields) : Except Fault Instruction :=
  match f.instruction? with
  | some instruction => .ok instruction
  | none => .error (.unknownInstruction f.raw)

end Fields

def Instruction.ofWord (word : UInt16) : Except Fault Instruction :=
  (Fields.ofWord word).decode

end Chip8
