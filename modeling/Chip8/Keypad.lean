/-! The sixteen keys, and what a machine is told when it asks which of them are held. What was said
last about a key counts. -/

namespace Chip8

structure Keypad where
  down : Vector Bool 16 := .replicate 16 false
  deriving DecidableEq, Repr

namespace Keypad

def size : Nat := 16

def set (pad : Keypad) (key : UInt8) (down : Bool) : Keypad :=
  if h : key.toNat < 16 then ⟨pad.down.set key.toNat down h⟩ else pad

def releaseAll (_ : Keypad) : Keypad := {}

def isPressed (pad : Keypad) (key : UInt8) : Bool :=
  if h : key.toNat < 16 then pad.down[key.toNat] else false

def pressed (pad : Keypad) : List UInt8 :=
  ((List.range 16).map UInt8.ofNat).filter pad.isPressed

end Keypad

/-- The answers to a machine's questions for the held keys: `input j` answers question `j`,
counted from zero. An answer may hold any bytes in any order. -/
abbrev Input := Nat → List UInt8

namespace Input

def silent : Input := fun _ => []

def constant (held : List UInt8) : Input := fun _ => held

def scripted (answers : List (List UInt8)) : Input := fun j => answers[j]?.getD []

end Input

def Keypad.input (pad : Keypad) : Input := .constant pad.pressed

namespace Keypad

theorem ext_isPressed {pad other : Keypad}
    (same : ∀ key, pad.isPressed key = other.isPressed key) : pad = other := by
  obtain ⟨down⟩ := pad
  obtain ⟨otherDown⟩ := other
  congr 1
  apply Vector.ext
  intro i hi
  have small : (UInt8.ofNat i).toNat = i := by
    rw [UInt8.toNat_ofNat']
    omega
  have bit := same (.ofNat i)
  simp only [isPressed, small, hi, dite_true] at bit
  exact bit

theorem set_of_le {key : UInt8} (h : 16 ≤ key.toNat) (pad : Keypad) (down : Bool) :
    pad.set key down = pad := by
  rw [set, dif_neg (Nat.not_lt.mpr h)]

theorem isPressed_set (pad : Keypad) (key other : UInt8) (down : Bool) :
    (pad.set key down).isPressed other =
      if key = other ∧ key.toNat < 16 then down else pad.isPressed other := by
  unfold set isPressed
  by_cases hk : key.toNat < 16 <;> by_cases ho : other.toNat < 16
  · simp [hk, ho, Vector.getElem_set, UInt8.toNat_inj]
  · have : key ≠ other := fun same => ho (same ▸ hk)
    simp [hk, ho, this]
  · simp [hk]
  · simp [hk]

@[simp] theorem isPressed_releaseAll (pad : Keypad) (key : UInt8) :
    pad.releaseAll.isPressed key = false := by
  simp [releaseAll, isPressed]

theorem lt_of_isPressed {pad : Keypad} {key : UInt8} (h : pad.isPressed key) :
    key.toNat < 16 := by
  unfold isPressed at h
  split at h
  · assumption
  · cases h

theorem mem_pressed {pad : Keypad} {key : UInt8} : key ∈ pad.pressed ↔ pad.isPressed key := by
  simp only [pressed, List.mem_filter, List.mem_map, List.mem_range]
  constructor
  · exact fun h => h.2
  · exact fun h => ⟨⟨key.toNat, lt_of_isPressed h, UInt8.ofNat_toNat⟩, h⟩

theorem pairwise_pressed (pad : Keypad) : pad.pressed.Pairwise (· < ·) :=
  List.Pairwise.filter _ (by decide)

theorem le_of_pressed_eq_cons {pad : Keypad} {key : UInt8} {others : List UInt8}
    (h : pad.pressed = key :: others) : ∀ other ∈ pad.pressed, key ≤ other := by
  have ascending := pad.pairwise_pressed
  rw [h] at ascending ⊢
  intro other mem
  rcases List.mem_cons.mp mem with rfl | later
  · exact UInt8.le_refl other
  · exact UInt8.le_of_lt (List.rel_of_pairwise_cons ascending later)

end Keypad

end Chip8
