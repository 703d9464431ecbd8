import Mathlib.Data.List.GetD
import Chip8.Proofs.Course
import Chip8.Proofs.Painting
import Chip8.Proofs.Restart
import Chip8.Proofs.Bulk

/-! The built-in font stays drawable. It lies below every program, so a program that leaves its bytes
alone can select the glyph of a digit and draw it, whatever has happened since it was loaded. -/

namespace Chip8

def Font.rows (digit : Nat) : List UInt8 := (glyphs.drop (5 * digit)).take 5

theorem Font.digit_le (value : UInt8) : (value &&& 0xF).toNat ≤ 0xF := by
  rw [UInt8.toNat_and]
  exact Nat.and_le_right

theorem Font.toNat_address (value : UInt8) :
    (address value).toNat = 0x50 + 5 * (value &&& 0xF).toNat := by
  have digit := digit_le value
  simp only [address, start, glyphHeight, UInt16.toNat_add, UInt16.toNat_mul, UInt8.toNat_toUInt16,
    UInt16.reduceToNat]
  omega

namespace Memory

variable {memory : Memory} {rom : Rom}

def HoldsFont (memory : Memory) : Prop :=
  ∀ a (h : a < 0x1000), 0x50 ≤ a → a < 0xA0 → memory.bytes[a] = Font.glyphs.getD (a - 0x50) 0

theorem holdsFont_initial : initial.HoldsFont := by
  intro a ha first last
  have length : Font.glyphs.length = 0x50 := rfl
  have base : Font.start.toNat = 0x50 := rfl
  refine (zero.getElem_overlay Font.start Font.glyphs (by decide) a ha).trans ?_
  rw [dif_pos (by omega), List.getD_eq_getElem _ _ (by omega)]
  simp only [base]

theorem Holds.font (h : memory.Holds rom) : memory.HoldsFont :=
  fun a ha first last => (h a ha).trans (if_pos ⟨first, last⟩)

theorem HoldsFont.glyph (holds : memory.HoldsFont) (value : UInt8) :
    memory.block (Font.address value) 5 = Font.rows (value &&& 0xF).toNat := by
  have digit := Font.digit_le value
  have length : Font.glyphs.length = 0x50 := rfl
  have address := Font.toNat_address value
  apply List.ext_getElem
  · simp only [block, Font.rows, List.length_take, List.length_drop, Vector.length_toList]
    omega
  · intro d _ hd
    simp only [Font.rows, List.length_take, List.length_drop] at hd
    simp only [block, Font.rows, List.getElem_take, List.getElem_drop, Vector.getElem_toList,
      address]
    rw [holds _ (by omega) (by omega) (by omega), List.getD_eq_getElem _ _ (by omega)]
    congr 1
    omega

end Memory

namespace Machine

variable {settings : Settings} {m n : Machine} {input : Input} {x y z : UInt8}

/-- The run ends with a start: it has only just begun, or its last command has loaded a program. -/
def Starts (m : Machine) (input : Input) (commands : List Command) : Prop :=
  commands = [] ∨ ∃ earlier rom entropy, commands = earlier ++ [.reset rom entropy] ∧
    ((m.obeyAll input earlier).reset rom entropy).fault = none

def SparesFont (m : Machine) (input : Input) (commands : List Command) : Prop :=
  ∀ before, before ++ [.step] <+: commands → ∀ a, 0x50 ≤ a → a < 0xA0 →
    ¬(m.obeyAll input before).Writes a

theorem holdsFont_built (h : m.Built settings) : m.memory.HoldsFont := by
  cases h with
  | blank => exact Memory.holdsFont_initial
  | boot rom entropy accepted =>
    by_cases fits : rom.size ≤ Rom.limit
    · obtain ⟨new, booted, holds⟩ := boot_of_le fits settings entropy
      rw [booted]
      exact holds.font
    · rw [boot_of_lt (Nat.not_le.mp fits)] at accepted
      cases accepted

/-- Whatever the machine has been through, a program that is loaded comes with the font, and one
that is refused takes nothing from it. -/
theorem holdsFont_reset {rom : Rom} {entropy : ChaCha.Key}
    (h : (m.reset rom entropy).fault = none ∨ m.memory.HoldsFont) :
    (m.reset rom entropy).after.memory.HoldsFont := by
  by_cases fits : rom.size ≤ Rom.limit
  · obtain ⟨memory, placed, holds⟩ := Memory.ofRom_of_le fits
    simp only [reset, placed]
    exact holds.font
  · rw [reset_of_lt (Nat.not_le.mp fits)] at h ⊢
    rcases h with accepted | holds
    · cases accepted
    · exact holds

theorem holdsFont_obey (holds : m.memory.HoldsFont) {command : Command}
    (spared : command = .step → ∀ a, 0x50 ≤ a → a < 0xA0 → ¬m.Writes a) (input : Input) :
    (m.obey input command).after.memory.HoldsFont := by
  cases command with
  | tick => exact holds
  | step =>
    intro a ha first last
    rw [← holds a ha first last]
    apply Classical.byContradiction
    intro changed
    exact spared rfl a first last (writes_of_changed ha changed)
  | reset rom entropy => exact holdsFont_reset (.inr holds)

theorem holdsFont_obeyAll (holds : m.memory.HoldsFont) {commands : List Command}
    (spares : m.SparesFont input commands) : (m.obeyAll input commands).memory.HoldsFont := by
  refine prefix_induction commands holds ?_
  intro before command listed held
  rw [obeyAll_concat]
  apply holdsFont_obey held
  rintro rfl
  exact spares before listed

theorem holdsFont_of_starts {before after : List Command} (built : m.Built settings)
    (starts : m.Starts input before)
    (spares : (m.obeyAll input before).SparesFont input after) :
    (m.obeyAll input (before ++ after)).memory.HoldsFont := by
  rw [obeyAll_append]
  refine holdsFont_obeyAll ?_ spares
  rcases starts with rfl | ⟨earlier, rom, entropy, rfl, accepted⟩
  · exact holdsFont_built built
  · rw [obeyAll_concat]
    exact holdsFont_reset (.inl accepted)

theorem step_of_selectGlyph (h : m.Executes (.selectGlyph x)) (input : Input) :
    (m.step input).fault = none ∧
      (m.step input).after = { m.pastWord with index := Font.address (m.register x) } :=
  (step_of_executes h input).symm

theorem painted_of_selected (holds : m.memory.HoldsFont) {value : UInt8}
    (index : m.index = Font.address value) (h : m.Executes (.draw y z 5)) (input : Input) :
    (m.step input).fault = none ∧
      Painted m y z (Font.rows (value &&& 0xF).toNat) (m.step input).after := by
  have digit := Font.digit_le value
  have fits : m.index.toNat + (5 : UInt8).toNat ≤ 0x1000 := by
    rw [index, Font.toNat_address]
    change _ + 5 ≤ 0x1000
    omega
  have rows : m.rows 5 = Font.rows (value &&& 0xF).toNat := by
    rw [rows, index]
    exact holds.glyph value
  obtain ⟨fault, after⟩ := step_of_draw h fits input
  rw [fault, after, ← rows]
  exact ⟨rfl, m.painted_setFlag y z (m.rows 5)⟩

theorem font_stays_drawable (built : m.Built settings) (input : Input) :
    (∀ rom : Rom, rom.size ≤ 3584 →
      ∃ memory, Memory.ofRom rom = .ok memory ∧ memory.HoldsFont) ∧
    ∀ before after, m.Starts input before →
      (m.obeyAll input before).SparesFont input after →
      let n := m.obeyAll input (before ++ after)
      ∀ x, n.Executes (.selectGlyph x) →
        let digit := (n.register x &&& 0xF).toNat
        let selected : Machine := { n with pc := n.pc + 2, index := .ofNat (0x50 + 5 * digit) }
        (n.step input).fault = none ∧ (n.step input).after = selected ∧
          ∀ y z, selected.Executes (.draw y z 5) →
            (selected.step input).fault = none ∧
              Painted selected y z (Font.rows digit) (selected.step input).after := by
  constructor
  · intro rom fits
    obtain ⟨memory, placed, holds⟩ := Memory.ofRom_of_le fits
    exact ⟨memory, placed, holds.font⟩
  · intro before after starts spares n x select digit selected
    have holds : n.memory.HoldsFont := holdsFont_of_starts built starts spares
    have address : Font.address (n.register x) = .ofNat (0x50 + 5 * digit) := by
      rw [← Font.toNat_address, UInt16.ofNat_toNat]
    obtain ⟨fault, moved⟩ := step_of_selectGlyph select input
    refine ⟨fault, ?_, ?_⟩
    · rw [moved, address]
      rfl
    · intro y z draw
      exact painted_of_selected (m := selected) holds address.symm draw input

theorem sparesFont_of_take {commands : List Command}
    (h : ∀ k < commands.length, (m.obeyAll input (commands.take k)).next?.all fun i =>
      i.written = 0 ∨ 0xA0 ≤ (m.obeyAll input (commands.take k)).index.toNat) :
    m.SparesFont input commands := by
  rintro before ⟨rest, rfl⟩ a first last ⟨i, executes, low, high⟩
  have spared := h before.length (by simp)
  simp only [List.append_assoc, List.take_left, next?_eq_some_iff.mpr executes,
    Option.all_some, decide_eq_true_eq] at spared
  omega

/-- A program that stores a byte right behind the font before it draws the glyph of a digit, with the
flag as one of the coordinates. -/
theorem font_stays_drawable_byte_behind :
    let rom : Rom := ⟨#[0x60, 0xFB, 0xA0, 0xA0, 0xF0, 0x55, 0xF0, 0x29, 0xDF, 0x05]⟩
    let m := (boot .empty {} (.replicate 8 0)).after
    let before : List Command := [.step, .reset rom (.replicate 8 0)]
    let after : List Command := [.step, .step, .step, .tick]
    let n := m.obeyAll .silent (before ++ after)
    let selected := (n.step .silent).after
    (m.obeyAll .silent before).SparesFont .silent after ∧
      n.memory.bytes[0xA0] = 0xFB ∧ n.Executes (.selectGlyph 0) ∧
      selected.Executes (.draw 0xF 0 5) ∧ (selected.step .silent).fault = none ∧
      Painted selected 0xF 0 [0xE0, 0x90, 0xE0, 0x90, 0xE0] (selected.step .silent).after := by
  intro rom m before after n selected
  have built : m.Built {} := .boot .empty (.replicate 8 0) (by decide +kernel)
  have starts : m.Starts .silent before :=
    .inr ⟨[.step], rom, .replicate 8 0, rfl, by decide +kernel⟩
  have spares : (m.obeyAll .silent before).SparesFont .silent after :=
    sparesFont_of_take (by decide +kernel)
  have stored : n.memory.bytes[0xA0] = 0xFB := by decide +kernel
  have select : n.Executes (.selectGlyph 0) := next?_eq_some_iff.mp (by decide +kernel)
  have draw : selected.Executes (.draw 0xF 0 5) := next?_eq_some_iff.mp (by decide +kernel)
  have digit : (n.register 0 &&& 0xF).toNat = 0xB := by decide +kernel
  obtain ⟨-, drawable⟩ := font_stays_drawable built .silent
  obtain ⟨-, moved, drawn⟩ := drawable before after starts spares 0 select
  rw [← moved, digit] at drawn
  obtain ⟨fault, painted⟩ := drawn 0xF 0 draw
  exact ⟨spares, stored, select, draw, fault, painted⟩

end Machine

end Chip8
