import Chip8.Proofs.Frame
import Chip8.Proofs.Sprites
import Chip8.Proofs.Course

/-! A cycle that draws: where its rows come from, what it shows, what becomes of the flag, and when
it is refused. Executed twice it takes back what it has drawn, and whatever it had to draw has put
out a pixel in one of the two cycles. -/

namespace Chip8

namespace Memory

def block (m : Memory) (base : UInt16) (count : Nat) : List UInt8 :=
  (m.bytes.toList.drop base.toNat).take count

theorem slice_of_le (m : Memory) {base : UInt16} {count : Nat}
    (fits : base.toNat + count ≤ 0x1000) : m.slice base count = .ok (m.block base count) := by
  rw [slice, dif_pos fits]
  congr 1
  apply List.ext_getElem
  · simp only [block, List.length_ofFn, List.length_take, List.length_drop, Vector.length_toList]
    omega
  · intro d hd _
    simp only [block, List.getElem_ofFn, List.getElem_take, List.getElem_drop,
      Vector.getElem_toList]

theorem slice_of_lt (m : Memory) {base : UInt16} {count : Nat}
    (exceeds : 0x1000 < base.toNat + count) :
    m.slice base count = .error (.memory (max base 0x1000)) :=
  dif_neg (Nat.not_le.mpr exceeds)

end Memory

namespace Machine

variable {m : Machine} {x y height : UInt8} {input : Input}

def rows (m : Machine) (height : UInt8) : List UInt8 := m.memory.block m.index height.toNat

theorem step_of_draw (h : m.Executes (.draw x y height))
    (fits : m.index.toNat + height.toNat ≤ 0x1000) (input : Input) :
    (m.step input).fault = none ∧
      (m.step input).after =
        ({ m.pastWord with
            screen := (m.screen.draw (m.register x) (m.register y) (m.rows height)).1 }).setFlag
          (m.screen.draw (m.register x) (m.register y) (m.rows height)).2 := by
  obtain ⟨after, fault⟩ := step_of_executes h input
  have sliced : m.pastWord.memory.slice m.pastWord.index height.toNat = .ok (m.rows height) :=
    m.memory.slice_of_le fits
  rw [after, fault]
  simp only [execute, sliced]
  exact ⟨rfl, rfl⟩

theorem step_of_draw_refused (h : m.Executes (.draw x y height))
    (exceeds : 0x1000 < m.index.toNat + height.toNat) (input : Input) :
    (m.step input).fault = some (.memory (max m.index 0x1000)) ∧
      (m.step input).after = m.pastWord := by
  obtain ⟨after, fault⟩ := step_of_executes h input
  have sliced : m.pastWord.memory.slice m.pastWord.index height.toNat =
      .error (.memory (max m.index 0x1000)) := m.memory.slice_of_lt exceeds
  rw [after, fault]
  simp only [execute, sliced]
  exact ⟨rfl, rfl⟩

theorem get_setFlag (m : Machine) (flag : Bool) (r : Fin 16) :
    (m.setFlag flag).registers.get r = if r = 0xF then flag.toUInt8 else m.registers.get r := by
  have last : r.val = (0xF : UInt8).toNat % 16 ↔ r = 0xF := by
    rw [Fin.ext_iff]
    rfl
  rw [setFlag, get_setRegister]
  simp only [last]

structure Painted (m : Machine) (x y : UInt8) (rows : List UInt8) (after : Machine) : Prop where
  screen : ∀ row column, after.screen.pixel row column =
    (m.screen.pixel row column ^^
      decide (Screen.Covers (m.register x) (m.register y) rows row column))
  flag : (after.registers.get 0xF = 1 ∧ ∃ row column,
      m.screen.pixel row column = true ∧ after.screen.pixel row column = false) ∨
    (after.registers.get 0xF = 0 ∧ ∀ row column,
      m.screen.pixel row column = true → after.screen.pixel row column = true)
  registers : ∀ r, r ≠ 0xF → after.registers.get r = m.registers.get r
  others : after =
    { m with pc := m.pc + 2, screen := after.screen, registers := after.registers }

theorem painted_setFlag (m : Machine) (x y : UInt8) (rows : List UInt8) :
    let drawn := m.screen.draw (m.register x) (m.register y) rows
    Painted m x y rows (({ m.pastWord with screen := drawn.1 }).setFlag drawn.2) := by
  intro drawn
  constructor
  · intro row column
    exact Screen.pixel_draw_eq
  · have collides := Screen.collides_iff m.screen (m.register x) (m.register y) rows
    rw [get_setFlag, if_pos rfl]
    cases flag : drawn.2 with
    | true => exact Or.inl ⟨rfl, collides.mp flag⟩
    | false =>
      refine Or.inr ⟨rfl, fun row column on => ?_⟩
      apply Bool.of_not_eq_false
      intro off
      have put_out := collides.mpr ⟨row, column, on, off⟩
      rw [flag] at put_out
      cases put_out
  · intro r hr
    rw [get_setFlag, if_neg hr]
    rfl
  · rfl

theorem register_setFlag_of_ne {r : UInt8} (small : r.toNat < 16) (h : r ≠ 0xF) (flag : Bool) :
    (m.setFlag flag).register r = m.register r := by
  rw [setFlag, register_setRegister, if_neg]
  intro same
  apply h
  apply UInt8.toNat_inj.mp
  rw [Nat.mod_eq_of_lt small] at same
  exact same.symm

theorem flag_setFlag_eq_one (m : Machine) (flag : Bool) :
    (m.setFlag flag).registers.get 0xF = 1 ↔ flag = true := by
  rw [get_setFlag, if_pos rfl]
  cases flag <;> decide

/-- Neither the place nor the rows of a sprite change while it is drawn, unless the flag is one of
the registers that say where. -/
theorem repeated_of_draw (h : m.Executes (.draw x y height)) (hx : x ≠ 0xF) (hy : y ≠ 0xF)
    (fits : m.index.toNat + height.toNat ≤ 0x1000) (input : Input) :
    (m.step input).after.register x = m.register x ∧
      (m.step input).after.register y = m.register y ∧
      (m.step input).after.rows height = m.rows height := by
  obtain ⟨-, after⟩ := step_of_draw h fits input
  rw [after]
  refine ⟨?_, ?_, rfl⟩
  · exact register_setFlag_of_ne (lt_of_mem_operands h x (.head _)) hx _
  · exact register_setFlag_of_ne (lt_of_mem_operands h y (.tail _ (.head _))) hy _

theorem painted_twice (h : m.Executes (.draw x y height)) (hx : x ≠ 0xF) (hy : y ≠ 0xF)
    (fits : m.index.toNat + height.toNat ≤ 0x1000) (input later : Input)
    (again : (m.step input).after.Executes (.draw x y height)) :
    ((m.step input).after.step later).after.screen = m.screen ∧
      ((m.step input).after.registers.get 0xF = 1 ∨
          ((m.step input).after.step later).after.registers.get 0xF = 1 ↔
        (Screen.shown (m.register x) (m.register y) (m.rows height)).Nonempty) := by
  obtain ⟨hvx, hvy, hrows⟩ := repeated_of_draw h hx hy fits input
  obtain ⟨-, once⟩ := step_of_draw h fits input
  have screen : (m.step input).after.screen =
      (m.screen.draw (m.register x) (m.register y) (m.rows height)).1 := by
    rw [once]
    rfl
  have index : (m.step input).after.index = m.index := by
    rw [once]
    rfl
  obtain ⟨-, twice⟩ := step_of_draw again (by rwa [index]) later
  rw [hvx, hvy, hrows, screen] at twice
  constructor
  · rw [twice]
    exact m.screen.draw_draw_self _ _ _
  · rw [twice, once, flag_setFlag_eq_one, flag_setFlag_eq_one]
    exact Screen.collides_once_or_twice m.screen _ _ _

theorem refused_twice (h : m.Executes (.draw x y height))
    (exceeds : 0x1000 < m.index.toNat + height.toNat) (input later : Input)
    (again : (m.step input).after.Executes (.draw x y height)) :
    ((m.step input).after.step later).after.screen = m.screen := by
  obtain ⟨-, once⟩ := step_of_draw_refused h exceeds input
  have index : (m.step input).after.index = m.index := by
    rw [once]
    rfl
  obtain ⟨-, twice⟩ := step_of_draw_refused again (by rwa [index]) later
  rw [twice, once]
  rfl

theorem sprite_painted_from_memory (h : m.Executes (.draw x y height)) (input : Input) :
    (m.index.toNat + height.toNat ≤ 0x1000 →
      (m.step input).fault = none ∧ Painted m x y (m.rows height) (m.step input).after) ∧
    (0x1000 < m.index.toNat + height.toNat →
      (m.step input).fault = some (.memory (max m.index 0x1000)) ∧
        (m.step input).after = { m with pc := m.pc + 2 }) ∧
    (x ≠ 0xF → y ≠ 0xF → ∀ later, (m.step input).after.Executes (.draw x y height) →
      let once := (m.step input).after
      let twice := (once.step later).after
      twice.screen = m.screen ∧
        (m.index.toNat + height.toNat ≤ 0x1000 →
          (once.registers.get 0xF = 1 ∨ twice.registers.get 0xF = 1 ↔
            (Screen.shown (m.register x) (m.register y) (m.rows height)).Nonempty))) := by
  refine ⟨?_, ?_, ?_⟩
  · intro fits
    obtain ⟨fault, after⟩ := step_of_draw h fits input
    rw [fault, after]
    exact ⟨rfl, m.painted_setFlag x y (m.rows height)⟩
  · intro exceeds
    exact step_of_draw_refused h exceeds input
  · intro hx hy later again once twice
    by_cases fits : m.index.toNat + height.toNat ≤ 0x1000
    · obtain ⟨screen, flags⟩ := painted_twice h hx hy fits input later again
      exact ⟨screen, fun _ => flags⟩
    · refine ⟨?_, fun h => absurd h fits⟩
      exact refused_twice h (Nat.not_le.mp fits) input later again

/-- The last two bytes of memory, drawn twice in the corner of the screen, and then once more as far
down as the flag says. From one byte further on they are refused, although the second row would have
been cut off. -/
theorem sprite_painted_from_memory_in_corner :
    let start : Machine := (boot ⟨#[0xD0, 0x12, 0xD0, 0x12, 0xD0, 0xF2]⟩ {} (.replicate 8 0)).after
    let m : Machine := { start with
      memory := start.memory.overlay 0xFFE [0xFF, 0x81] (by decide)
      index := 0xFFE
      registers := (Vector.replicate 16 31).set 0 60 }
    let once := (m.step .silent).after
    let twice := (once.step .silent).after
    let behind : Machine := { m with index := 0xFFF }
    Painted m 0 1 [0xFF, 0x81] once ∧ twice.screen = m.screen ∧
      (once.registers.get 0xF = 1 ∨ twice.registers.get 0xF = 1) ∧
      Painted twice 0 0xF [0xFF, 0x81] (twice.step .silent).after ∧
      (behind.step .silent).fault = some (.memory 0x1000) := by
  intro start m once twice behind
  have first : m.Executes (.draw 0 1 2) := next?_eq_some_iff.mp (by decide +kernel)
  have second : once.Executes (.draw 0 1 2) := next?_eq_some_iff.mp (by decide +kernel)
  have third : twice.Executes (.draw 0 0xF 2) := next?_eq_some_iff.mp (by decide +kernel)
  have last : behind.Executes (.draw 0 1 2) := next?_eq_some_iff.mp (by decide +kernel)
  have rows : m.rows 2 = [0xFF, 0x81] := by decide +kernel
  have rows' : twice.rows 2 = [0xFF, 0x81] := by decide +kernel
  have fits : m.index.toNat + (2 : UInt8).toNat ≤ 0x1000 := by decide +kernel
  have fits' : twice.index.toNat + (2 : UInt8).toNat ≤ 0x1000 := by decide +kernel
  have exceeds : 0x1000 < behind.index.toNat + (2 : UInt8).toNat := by decide +kernel
  obtain ⟨painted, -, repeated⟩ := sprite_painted_from_memory first .silent
  obtain ⟨painted', -⟩ := sprite_painted_from_memory third .silent
  obtain ⟨-, refused, -⟩ := sprite_painted_from_memory last .silent
  obtain ⟨screen, flags⟩ := repeated (by decide) (by decide) .silent second
  have shown : (Screen.shown (m.register 0) (m.register 1) (m.rows 2)).Nonempty := by
    decide +kernel
  refine ⟨rows ▸ (painted fits).2, screen, (flags fits).mpr shown, rows' ▸ (painted' fits').2, ?_⟩
  exact (refused exceeds).1

end Machine

end Chip8
