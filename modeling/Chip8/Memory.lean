import Chip8.Outcome

/-! The 4096 bytes of memory, with the built-in font and the program that a start puts there.
Addresses have sixteen bits, so every access is checked, and a longer access fails at the first byte
that lies outside. A write is seen by reads of its own address only. -/

namespace Chip8

structure Rom where
  bytes : Array UInt8 := #[]
  deriving DecidableEq, Repr

namespace Rom

def empty : Rom := {}

def size (rom : Rom) : Nat := rom.bytes.size

def isEmpty (rom : Rom) : Bool := rom.bytes.isEmpty

def start : UInt16 := 0x200

def limit : Nat := 0xE00

end Rom

namespace Font

def glyphs : List UInt8 := [
  0xF0, 0x90, 0x90, 0x90, 0xF0,
  0x20, 0x60, 0x20, 0x20, 0x70,
  0xF0, 0x10, 0xF0, 0x80, 0xF0,
  0xF0, 0x10, 0xF0, 0x10, 0xF0,
  0x90, 0x90, 0xF0, 0x10, 0x10,
  0xF0, 0x80, 0xF0, 0x10, 0xF0,
  0xF0, 0x80, 0xF0, 0x90, 0xF0,
  0xF0, 0x10, 0x20, 0x40, 0x40,
  0xF0, 0x90, 0xF0, 0x90, 0xF0,
  0xF0, 0x90, 0xF0, 0x10, 0xF0,
  0xF0, 0x90, 0xF0, 0x90, 0x90,
  0xE0, 0x90, 0xE0, 0x90, 0xE0,
  0xF0, 0x80, 0x80, 0x80, 0xF0,
  0xE0, 0x90, 0x90, 0x90, 0xE0,
  0xF0, 0x80, 0xF0, 0x80, 0xF0,
  0xF0, 0x80, 0xF0, 0x80, 0x80]

def start : UInt16 := 0x50

def glyphHeight : UInt16 := 5

def address (value : UInt8) : UInt16 := start + glyphHeight * (value &&& 0xF).toUInt16

end Font

structure Memory where
  bytes : Vector UInt8 0x1000
  deriving DecidableEq

namespace Memory

def size : Nat := 0x1000

def zero : Memory := ⟨.replicate 0x1000 0⟩

def overlay (m : Memory) (base : UInt16) (image : List UInt8)
    (fits : base.toNat + image.length ≤ 0x1000) : Memory where
  bytes := ⟨(m.bytes.toList.take base.toNat ++ image ++
    m.bytes.toList.drop (base.toNat + image.length)).toArray, by simp; omega⟩

def initial : Memory := zero.overlay Font.start Font.glyphs (by decide)

def ofRom (rom : Rom) : Except Fault Memory :=
  if h : rom.size ≤ Rom.limit then
    .ok (initial.overlay Rom.start rom.bytes.toList (Nat.add_le_add_left h 0x200))
  else .error (.romTooLarge rom.size Rom.limit)

def read (m : Memory) (address : UInt16) : Except Fault UInt8 :=
  if h : address.toNat < 0x1000 then .ok m.bytes[address.toNat]
  else .error (.memory address)

def write (m : Memory) (address : UInt16) (byte : UInt8) : Except Fault Memory :=
  if h : address.toNat < 0x1000 then .ok ⟨m.bytes.set address.toNat byte h⟩
  else .error (.memory address)

/-- Addresses do not wrap around: a sum that needs seventeen bits is a fault at the last one. -/
def offset (base distance : UInt16) : Except Fault UInt16 :=
  if base.toNat + distance.toNat < 0x10000 then .ok (base + distance)
  else .error (.memory 0xFFFF)

def word (m : Memory) (address : UInt16) : Except Fault UInt16 :=
  match m.read address with
  | .error fault => .error fault
  | .ok high =>
    match offset address 1 with
    | .error fault => .error fault
    | .ok next =>
      match m.read next with
      | .error fault => .error fault
      | .ok low => .ok (high.toUInt16 <<< 8 ||| low.toUInt16)

/-- What a length has to stay below: the host adds it to an address in one word of 64 bits. -/
def wordLimit : Nat := 0x10000000000000000

/-- All of `length` bytes at once, or none of them. The bounds are checked before anything is
read, even where nothing is to be read. It stands for the program only where the sum of `address`
and `length` is below `wordLimit`; past that the addition itself overflows. -/
def slice (m : Memory) (address : UInt16) (length : Nat) : Except Fault (List UInt8) :=
  if h : address.toNat + length ≤ 0x1000 then
    .ok (List.ofFn fun d : Fin length => m.bytes[address.toNat + d])
  else .error (.memory (max address 0x1000))

/-- Writes byte after byte to `base + distance` and the addresses behind it. The bytes before
the first refused one stay written. -/
def store (m : Memory) (base : UInt16) : UInt16 → List UInt8 → Outcome Memory
  | _, [] => .ok m
  | distance, byte :: rest =>
    match offset base distance with
    | .error fault => .failed m fault
    | .ok address =>
      match m.write address byte with
      | .error fault => .failed m fault
      | .ok written => written.store base (distance + 1) rest

/-- Reads byte after byte from `base + distance` and the addresses behind it, `count` of them
at most: the bytes before the first refused one, and the fault that refused it. -/
def gather (m : Memory) (base : UInt16) : UInt16 → Nat → Outcome (List UInt8)
  | _, 0 => .ok []
  | distance, count + 1 =>
    match offset base distance with
    | .error fault => .failed [] fault
    | .ok address =>
      match m.read address with
      | .error fault => .failed [] fault
      | .ok byte => (m.gather base (distance + 1) count).map (byte :: ·)

/-- Below the base and past the end of an image the memory under it shows. -/
theorem getElem_overlay (m : Memory) (base : UInt16) (image : List UInt8)
    (fits : base.toNat + image.length ≤ 0x1000) (a : Nat) (h : a < 0x1000) :
    (m.overlay base image fits).bytes[a] =
      if inside : base.toNat ≤ a ∧ a < base.toNat + image.length then
        image[a - base.toNat]
      else m.bytes[a] := by
  unfold overlay
  simp only [Vector.getElem_mk, List.getElem_toArray, List.getElem_append, List.length_append,
    List.length_take, Vector.length_toList, List.getElem_take, List.getElem_drop,
    Vector.getElem_toList]
  split
  · split
    · rw [dif_neg (by omega)]
    · rw [dif_pos (by omega)]
      congr 1
      omega
  · rw [dif_neg (by omega)]
    congr 1
    omega

theorem read_of_lt (m : Memory) {a : UInt16} (h : a.toNat < 0x1000) :
    m.read a = .ok m.bytes[a.toNat] := by
  simp [read, h]

theorem read_of_le (m : Memory) {a : UInt16} (h : 0x1000 ≤ a.toNat) :
    m.read a = .error (.memory a) := by
  simp [read, Nat.not_lt.mpr h]

theorem write_of_lt (m : Memory) {a : UInt16} (b : UInt8) (h : a.toNat < 0x1000) :
    m.write a b = .ok ⟨m.bytes.set a.toNat b h⟩ := by
  simp [write, h]

theorem write_of_le (m : Memory) {a : UInt16} (b : UInt8) (h : 0x1000 ≤ a.toNat) :
    m.write a b = .error (.memory a) := by
  simp [write, Nat.not_lt.mpr h]

theorem offset_of_lt {base distance : UInt16} (h : base.toNat + distance.toNat < 0x10000) :
    offset base distance = .ok (base + distance) := by
  simp [offset, h]

theorem toNat_of_offset {base distance address : UInt16}
    (h : offset base distance = .ok address) :
    address.toNat = base.toNat + distance.toNat := by
  unfold offset at h
  split at h
  · cases h
    rw [UInt16.toNat_add]
    omega
  · cases h

end Memory

end Chip8
