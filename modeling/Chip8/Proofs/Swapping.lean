import Mathlib.Control.Monad.Basic
import Chip8.Proofs.Disguise
import Chip8.Proofs.Course
import Chip8.Proofs.Frame

/-! A tick and a cycle in either order. A tick changes the timers and nothing else, so the order only
shows in a cycle that copies a timer, or sets one: then the tick takes one off the copy, or off what
has been set. -/

namespace Chip8.Machine

variable {m : Machine} {x : UInt8} {input : Input}

structure Swaps (m : Machine) (input : Input) : Prop where
  fault : (m.tick.step input).fault = (m.step input).fault
  machine : (m.tick.step input).after = (m.step input).after.tick

theorem step_tick (untimed : ∀ i, m.Executes i → i.isTimed = false) (input : Input) :
    m.tick.step input = (m.step input).map tick := by
  rcases m.step_disguised { delay := countDown, sound := countDown } input input with
    ⟨-, same⟩ | ⟨i, executes, lift⟩
  · exact same
  · apply lift
    apply execute_disguised
    · exact fun _ => rfl
    · exact fun _ => rfl
    · intro timed
      cases (untimed i executes).symm.trans timed
    · exact fun _ _ _ => rfl

theorem swaps_of_untimed (untimed : ∀ i, m.Executes i → i.isTimed = false) (input : Input) :
    m.Swaps input := by
  constructor
  · rw [step_tick untimed]
    rfl
  · rw [step_tick untimed]
    rfl

/-- Two cycles that are not refused, and leave machines that tell what value was written. -/
theorem swaps_iff_of_written (write : UInt8 → Machine)
    (told : ∀ value other, write value = write other → value = other) {value other : UInt8}
    (ticked : (m.tick.step input).fault = none ∧ (m.tick.step input).after = write value)
    (unticked : (m.step input).fault = none ∧ (m.step input).after.tick = write other) :
    m.Swaps input ↔ value = other := by
  obtain ⟨fault, machine⟩ := ticked
  obtain ⟨fault', machine'⟩ := unticked
  constructor
  · intro swaps
    apply told
    rw [← machine, ← machine', swaps.machine]
  · rintro rfl
    exact ⟨fault.trans fault'.symm, machine.trans machine'.symm⟩

theorem step_of_readDelay (h : m.Executes (.readDelay x)) (input : Input) :
    (m.step input).fault = none ∧ (m.step input).after = m.pastWord.setRegister x m.delay :=
  (step_of_executes h input).symm

theorem step_of_setDelay (h : m.Executes (.setDelay x)) (input : Input) :
    (m.step input).fault = none ∧
      (m.step input).after = { m.pastWord with delay := m.register x } :=
  (step_of_executes h input).symm

theorem step_of_setSound (h : m.Executes (.setSound x)) (input : Input) :
    (m.step input).fault = none ∧
      (m.step input).after = { m.pastWord with sound := m.register x } :=
  (step_of_executes h input).symm

theorem swaps_readDelay_iff (h : m.Executes (.readDelay x)) (input : Input) :
    m.Swaps input ↔ m.delay = 0 := by
  obtain ⟨fault, after⟩ := step_of_readDelay h input
  rw [← countDown_eq_self_iff]
  refine swaps_iff_of_written (m.tick.pastWord.setRegister x) ?_
    (step_of_readDelay (m := m.tick) h input) ⟨fault, congrArg tick after⟩
  intro value other same
  have written := congrArg (fun n : Machine => n.register x) same
  simpa only [register_setRegister_self] using written

theorem swaps_setDelay_iff (h : m.Executes (.setDelay x)) (input : Input) :
    m.Swaps input ↔ m.register x = 0 := by
  obtain ⟨fault, after⟩ := step_of_setDelay h input
  rw [← countDown_eq_self_iff, eq_comm]
  exact swaps_iff_of_written (fun value => { m.tick.pastWord with delay := value })
    (fun _ _ => congrArg Machine.delay) (step_of_setDelay (m := m.tick) h input)
    ⟨fault, congrArg tick after⟩

theorem swaps_setSound_iff (h : m.Executes (.setSound x)) (input : Input) :
    m.Swaps input ↔ m.register x = 0 := by
  obtain ⟨fault, after⟩ := step_of_setSound h input
  rw [← countDown_eq_self_iff, eq_comm]
  exact swaps_iff_of_written (fun value => { m.tick.pastWord with sound := value })
    (fun _ _ => congrArg Machine.sound) (step_of_setSound (m := m.tick) h input)
    ⟨fault, congrArg tick after⟩

/-- Only the register that the timer is copied to differs. -/
theorem readDelay_of_ticking (h : m.Executes (.readDelay x)) (ticking : m.delay ≠ 0)
    (input : Input) :
    ((m.step input).after.register x).toNat = ((m.tick.step input).after.register x).toNat + 1 ∧
      (m.step input).after.tick = (m.tick.step input).after.setRegister x m.delay := by
  obtain ⟨-, early⟩ := step_of_readDelay (m := m.tick) h input
  obtain ⟨-, late⟩ := step_of_readDelay h input
  rw [early, late]
  constructor
  · have copied : m.tick.delay.toNat = m.delay.toNat - 1 := toNat_countDown m.delay
    have positive : m.delay.toNat ≠ 0 := fun zero => ticking (UInt8.toNat_inj.mp zero)
    rw [register_setRegister_self, register_setRegister_self, copied]
    omega
  · simp only [setRegister, Vector.set_set]
    rfl

theorem exists_of_isTimed {word : UInt16} {i : Instruction} (h : Instruction.ofWord word = .ok i)
    (timed : i.isTimed = true) :
    ∃ (x : Fin 16) (low : Nat), low ∈ [0x07, 0x15, 0x18] ∧
      word = .ofNat (0xF000 + 0x100 * x.val + low) := by
  have byte : ∃ low ∈ [0x07, 0x15, 0x18], i.lowByte? = some low := by
    cases i with
    | readDelay | setDelay | setSound => simp [Instruction.lowByte?]
    | _ => cases timed
  obtain ⟨low, listed, byte⟩ := byte
  obtain ⟨x, number, -⟩ := Instruction.exists_of_lowByte? h byte
  exact ⟨x, low, listed, number⟩

theorem tick_swaps_with_step (m : Machine) (input : Input) :
    ((∀ (x : Fin 16) (low : Nat), low ∈ [0x07, 0x15, 0x18] →
      m.fetch ≠ .ok (.ofNat (0xF000 + 0x100 * x.val + low))) → m.Swaps input) ∧
    ∀ x : Fin 16,
      (m.fetch = .ok (.ofNat (0xF000 + 0x100 * x.val + 0x07)) →
        (m.Swaps input ↔ m.delay = 0) ∧
        (m.delay ≠ 0 →
          ((m.step input).after.registers.get x).toNat =
              ((m.tick.step input).after.registers.get x).toNat + 1 ∧
            (m.step input).after.tick =
              (m.tick.step input).after.setRegister (.ofNat x.val) m.delay)) ∧
      (m.fetch = .ok (.ofNat (0xF000 + 0x100 * x.val + 0x15)) →
        (m.Swaps input ↔ m.registers.get x = 0)) ∧
      (m.fetch = .ok (.ofNat (0xF000 + 0x100 * x.val + 0x18)) →
        (m.Swaps input ↔ m.registers.get x = 0)) := by
  constructor
  · intro others
    apply swaps_of_untimed
    rintro i ⟨word, fetched, decoded⟩
    cases timed : i.isTimed with
    | false => rfl
    | true =>
      obtain ⟨x, low, listed, rfl⟩ := exists_of_isTimed decoded timed
      exact absurd fetched (others x low listed)
  · intro x
    refine ⟨fun fetched => ?_, fun fetched => ?_, fun fetched => ?_⟩
    · have reads : m.Executes (.readDelay (.ofNat x.val)) :=
        ⟨_, fetched, Instruction.ofWord_of_lowByte? rfl rfl⟩
      refine ⟨swaps_readDelay_iff reads input, fun ticking => ?_⟩
      rw [← register_ofNat, ← register_ofNat]
      exact readDelay_of_ticking reads ticking input
    · rw [← register_ofNat]
      exact swaps_setDelay_iff ⟨_, fetched, Instruction.ofWord_of_lowByte? rfl rfl⟩ input
    · rw [← register_ofNat]
      exact swaps_setSound_iff ⟨_, fetched, Instruction.ofWord_of_lowByte? rfl rfl⟩ input

/-- The timer is copied while it runs, then set to nothing and set to nine. Behind that comes a word
that is unknown. -/
theorem tick_swaps_with_step_but_for_timers :
    let rom : Rom := ⟨#[0xF0, 0x07, 0xF1, 0x15, 0xF2, 0x18, 0x80, 0x08]⟩
    let start := (boot rom {} (.replicate 8 0)).after
    let m : Machine := { start with delay := 5, registers := start.registers.set 2 9 }
    let later (pc : UInt16) : Machine := { m with pc }
    (¬m.Swaps .silent ∧ ((m.step .silent).after.registers.get 0).toNat =
        ((m.tick.step .silent).after.registers.get 0).toNat + 1) ∧
      (later 0x202).Swaps .silent ∧ ¬(later 0x204).Swaps .silent ∧
      ((later 0x206).Swaps .silent ∧
        ((later 0x206).step .silent).fault = some (.unknownInstruction 0x8008)) := by
  intro rom start m later
  have copy : m.fetch = .ok 0xF007 := by decide +kernel
  have nothing : (later 0x202).fetch = .ok 0xF115 := by decide +kernel
  have nine : (later 0x204).fetch = .ok 0xF218 := by decide +kernel
  have unknown : (later 0x206).fetch = .ok 0x8008 := by decide +kernel
  obtain ⟨-, reads⟩ := tick_swaps_with_step m .silent
  obtain ⟨-, sets⟩ := tick_swaps_with_step (later 0x202) .silent
  obtain ⟨-, sounds⟩ := tick_swaps_with_step (later 0x204) .silent
  obtain ⟨others, -⟩ := tick_swaps_with_step (later 0x206) .silent
  have ticking : m.delay ≠ 0 := by decide
  obtain ⟨once, copied⟩ := (reads 0).1 copy
  refine ⟨⟨mt once.mp ticking, (copied ticking).1⟩, ?_, ?_, ?_, by decide +kernel⟩
  · exact ((sets 1).2.1 nothing).mpr (by decide +kernel)
  · exact mt ((sounds 2).2.2 nine).mp (by decide +kernel)
  · apply others
    rw [unknown]
    decide +kernel

end Chip8.Machine
