import Chip8.Proofs.Painting

/-! The operations on two registers, said in numbers. The two may be one register, and each of them
may be the flag. Operands are read before anything is written, and the flag is written last, so a
result that goes to the flag register is lost whenever the operation has a flag to set. -/

namespace Chip8

namespace Arithmetic

def result (a b : Nat) : Arithmetic → Nat
  | copy => b
  | or => a ||| b
  | and => a &&& b
  | xor => a ^^^ b
  | add => (a + b) % 256
  | subtract => ((a - b : Int) % 256).toNat
  | subtractFrom => ((b - a : Int) % 256).toNat
  | shiftRight => a / 2
  | shiftLeft => 2 * a % 256

def Raises (a b : Nat) : Arithmetic → Prop
  | copy | or | and | xor => False
  | add => 255 < a + b
  | subtract => b ≤ a
  | subtractFrom => a ≤ b
  | shiftRight => a % 2 = 1
  | shiftLeft => 128 ≤ a

instance (a b : Nat) : (op : Arithmetic) → Decidable (op.Raises a b)
  | copy | or | and | xor => inferInstanceAs (Decidable False)
  | add => inferInstanceAs (Decidable (255 < a + b))
  | subtract => inferInstanceAs (Decidable (b ≤ a))
  | subtractFrom => inferInstanceAs (Decidable (a ≤ b))
  | shiftRight => inferInstanceAs (Decidable (a % 2 = 1))
  | shiftLeft => inferInstanceAs (Decidable (128 ≤ a))

theorem toNat_apply (op : Arithmetic) (a b : UInt8) :
    (op.apply a b).1.toNat = op.result a.toNat b.toNat := by
  have ha := a.toNat_lt
  have hb := b.toNat_lt
  cases op with
  | copy => rfl
  | or => exact UInt8.toNat_or a b
  | and => exact UInt8.toNat_and a b
  | xor => exact UInt8.toNat_xor a b
  | add => exact UInt8.toNat_add a b
  | subtract =>
    simp only [apply, result, UInt8.toNat_sub]
    omega
  | subtractFrom =>
    simp only [apply, result, UInt8.toNat_sub]
    omega
  | shiftRight =>
    simp only [apply, result, UInt8.toNat_shiftRight, UInt8.reduceToNat, Nat.shiftRight_eq_div_pow,
      Nat.reduceMod, Nat.reducePow]
  | shiftLeft =>
    simp only [apply, result, UInt8.toNat_shiftLeft, UInt8.reduceToNat, Nat.shiftLeft_eq,
      Nat.reduceMod, Nat.reducePow]
    omega

theorem and_one_eq_one_iff (a : UInt8) : a &&& 1 = 1 ↔ a.toNat % 2 = 1 := by
  simp only [← UInt8.toNat_inj, UInt8.toNat_and, UInt8.reduceToNat, Nat.and_one_is_mod]

theorem shiftRight_seven_eq_one_iff (a : UInt8) : a >>> 7 = 1 ↔ 128 ≤ a.toNat := by
  have ha := a.toNat_lt
  simp only [← UInt8.toNat_inj, UInt8.toNat_shiftRight, UInt8.reduceToNat,
    Nat.shiftRight_eq_div_pow, Nat.reduceMod, Nat.reducePow]
  omega

theorem flag_apply (op : Arithmetic) (a b : UInt8) :
    (op.apply a b).2 = if op.flagged then some (decide (op.Raises a.toNat b.toNat)) else none := by
  cases op with
  | shiftRight => exact congrArg some (decide_eq_decide.mpr (and_one_eq_one_iff a))
  | shiftLeft => exact congrArg some (decide_eq_decide.mpr (shiftRight_seven_eq_one_iff a))
  | _ => rfl

end Arithmetic

namespace Machine

variable {m : Machine} {op : Arithmetic}

theorem get_setRegister_ofNat (m : Machine) (x : Fin 16) (value : UInt8) (r : Fin 16) :
    (m.setRegister (.ofNat x.val) value).registers.get r =
      if r = x then value else m.registers.get r := by
  rw [get_setRegister, toNat_ofNat_mod]
  simp only [Fin.ext_iff]

theorem compute_of_not_flagged (h : op.flagged = false) (m : Machine) (x y : UInt8) :
    m.compute op x y = m.setRegister x (op.apply (m.register x) (m.register y)).1 := by
  cases op with
  | copy | or | and | xor => rfl
  | _ => cases h

theorem compute_of_flagged (h : op.flagged = true) (m : Machine) (x y : UInt8) :
    m.compute op x y =
      (m.setRegister x (op.apply (m.register x) (m.register y)).1).setFlag
        (op.Raises (m.register x).toNat (m.register y).toNat) := by
  have flag := op.flag_apply (m.register x) (m.register y)
  rw [if_pos h] at flag
  simp only [compute]
  split
  · rename_i applied
    rw [applied] at flag
    cases flag
  · rename_i applied
    rw [applied] at flag
    cases flag
    rw [applied]

theorem toUInt8_decide (p : Prop) [Decidable p] : (decide p).toUInt8 = if p then 1 else 0 := by
  by_cases h : p
  · rw [decide_eq_true h, if_pos h]
    rfl
  · rw [decide_eq_false h, if_neg h]
    rfl

theorem get_compute (m : Machine) (op : Arithmetic) (x y r : Fin 16) :
    (m.compute op (.ofNat x.val) (.ofNat y.val)).registers.get r =
      if op.flagged = true ∧ r = 0xF then
        if op.Raises (m.registers.get x).toNat (m.registers.get y).toNat then 1 else 0
      else if r = x then (op.apply (m.registers.get x) (m.registers.get y)).1
      else m.registers.get r := by
  by_cases flagged : op.flagged = true
  · rw [compute_of_flagged flagged, get_setFlag, get_setRegister_ofNat, register_ofNat,
      register_ofNat, toUInt8_decide]
    simp only [flagged, true_and]
  · have unflagged := Bool.eq_false_of_not_eq_true flagged
    rw [compute_of_not_flagged unflagged, get_setRegister_ofNat, register_ofNat, register_ofNat]
    simp only [unflagged, Bool.false_eq_true, false_and, if_false]

theorem compute_eq (m : Machine) (op : Arithmetic) (x y : UInt8) :
    m.compute op x y = { m with registers := (m.compute op x y).registers } := by
  cases op <;> rfl

/-- What an operation on the registers `x` and `y` comes to. The second operand is one of the
others, unless it is the first or the flag. -/
structure Computed (m : Machine) (op : Arithmetic) (x y : Fin 16) (after : Machine) : Prop where
  destination : x ≠ 0xF ∨ op.flagged = false → (after.registers.get x).toNat =
    op.result (m.registers.get x).toNat (m.registers.get y).toNat
  flag : op.flagged = true → after.registers.get 0xF =
    if op.Raises (m.registers.get x).toNat (m.registers.get y).toNat then 1 else 0
  others : ∀ r, r ≠ x → r ≠ 0xF ∨ op.flagged = false →
    after.registers.get r = m.registers.get r
  rest : after = { m with pc := m.pc + 2, registers := after.registers }

theorem computed_compute (m : Machine) (op : Arithmetic) (x y : Fin 16) :
    Computed m op x y (m.pastWord.compute op (.ofNat x.val) (.ofNat y.val)) := by
  have unflagged : ∀ r : Fin 16, r ≠ 0xF ∨ op.flagged = false →
      ¬(op.flagged = true ∧ r = 0xF) := by
    rintro r (apart | none) ⟨flagged, last⟩
    · exact apart last
    · cases flagged.symm.trans none
  constructor
  · intro kept
    rw [get_compute, if_neg (unflagged x kept), if_pos rfl]
    exact op.toNat_apply (m.registers.get x) (m.registers.get y)
  · intro flagged
    rw [get_compute, if_pos ⟨flagged, rfl⟩]
    rfl
  · intro r other kept
    rw [get_compute, if_neg (unflagged r kept), if_neg other]
    rfl
  · exact m.pastWord.compute_eq op _ _

theorem step_computes_under_aliasing {x y : Fin 16}
    (fetched : m.fetch = .ok (.ofNat (0x8000 + 0x100 * x.val + 0x10 * y.val + op.digit)))
    (input : Input) :
    (m.step input).fault = none ∧ Computed m op x y (m.step input).after := by
  have executes : m.Executes (.arithmetic op (.ofNat x.val) (.ofNat y.val)) :=
    ⟨_, fetched, Instruction.ofWord_arithmetic⟩
  obtain ⟨after, fault⟩ := step_of_executes executes input
  rw [after, fault]
  exact ⟨rfl, m.computed_compute op x y⟩

/-- The flag register is doubled, and then a difference goes to it that also has to borrow. Both
results are lost. -/
theorem step_computes_under_aliasing_in_flag :
    let m : Machine := { (boot ⟨#[0x8F, 0xF4, 0x8F, 0x05]⟩ {} (.replicate 8 0)).after with
      registers := .replicate 16 200 }
    let n := (m.step .silent).after
    Computed m .add 0xF 0xF n ∧ n.registers.get 0xF = 1 ∧
      Computed n .subtract 0xF 0 (n.step .silent).after ∧
      (n.step .silent).after.registers.get 0xF = 0 := by
  intro m n
  have first : m.fetch = .ok 0x8FF4 := by decide +kernel
  have second : n.fetch = .ok 0x8F05 := by decide +kernel
  have sum : Computed m .add 0xF 0xF n := (step_computes_under_aliasing first .silent).2
  have difference : Computed n .subtract 0xF 0 (n.step .silent).after :=
    (step_computes_under_aliasing second .silent).2
  refine ⟨sum, ?_, difference, ?_⟩
  · exact (sum.flag rfl).trans (if_pos (by decide +kernel))
  · exact (difference.flag rfl).trans (if_neg (by decide +kernel))

end Machine

end Chip8
