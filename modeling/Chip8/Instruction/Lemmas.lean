import Chip8.Instruction

/-! Where operands come from. They are fields of the word, so a register goes by one digit and an
address has three. Also which words stand for the instructions of the families `8` and `F`. -/

namespace Chip8

namespace Instruction

def operands : Instruction → List UInt8
  | .skipEqual x _ | .skipUnequal x _ | .load x _ | .add x _ | .random x _ | .skipHeld x
  | .skipReleased x | .readDelay x | .awaitKey x | .setDelay x | .setSound x | .addIndex x
  | .selectGlyph x | .storeDigits x | .storeRegisters x | .loadRegisters x => [x]
  | .skipSame x y | .arithmetic _ x y | .skipDifferent x y | .draw x y _ => [x, y]
  | .clear | .ret | .jump _ | .call _ | .setIndex _ | .jumpOffset _ => []

def address? : Instruction → Option UInt16
  | .jump target | .call target => some target
  | .setIndex address => some address
  | .jumpOffset base => some base
  | _ => none

end Instruction

namespace Fields

theorem decode_eq_ok_iff {f : Fields} {i : Instruction} :
    f.decode = .ok i ↔ f.instruction? = some i := by
  unfold decode
  cases f.instruction? with
  | some j => simp
  | none => simp

theorem operands_miscellaneous? {f : Fields} {i : Instruction}
    (h : f.miscellaneous? = some i) : i.operands = [f.x] ∧ i.address? = none := by
  simp only [miscellaneous?] at h
  split at h <;> cases h <;> exact ⟨rfl, rfl⟩

theorem operands_instruction? {f : Fields} {i : Instruction} (h : f.instruction? = some i) :
    (∀ r ∈ i.operands, r = f.x ∨ r = f.y) ∧
      ∀ address, i.address? = some address → address = f.nnn := by
  simp only [instruction?] at h
  split at h
  case h_1 | h_15 =>
    split at h <;> cases h <;> simp [Instruction.operands, Instruction.address?]
  case h_9 =>
    obtain ⟨op, -, rfl⟩ := Option.map_eq_some_iff.mp h
    simp [Instruction.operands, Instruction.address?]
  case h_16 =>
    obtain ⟨operands, address⟩ := operands_miscellaneous? h
    simp [operands, address]
  all_goals
    cases h
    simp [Instruction.operands, Instruction.address?]

theorem toNat_low_digit (word : UInt16) : (word &&& 0xF).toUInt8.toNat = word.toNat % 16 := by
  have digit : (word &&& 0xF).toNat = word.toNat % 16 := by
    rw [UInt16.toNat_and]
    exact Nat.and_two_pow_sub_one_eq_mod _ 4
  rw [UInt16.toNat_toUInt8, digit]
  omega

theorem toNat_digit_lt (word : UInt16) : (word &&& 0xF).toUInt8.toNat < 16 := by
  rw [toNat_low_digit]
  omega

theorem toNat_digit (word shift : UInt16) :
    (word >>> shift &&& 0xF).toUInt8.toNat = word.toNat >>> (shift.toNat % 16) % 16 := by
  rw [toNat_low_digit, UInt16.toNat_shiftRight]

theorem toNat_i (word : UInt16) : (ofWord word).i.toNat = word.toNat / 4096 := by
  have small := word.toNat_lt
  simp only [ofWord, UInt16.toNat_toUInt8, UInt16.toNat_shiftRight, UInt16.reduceToNat,
    Nat.shiftRight_eq_div_pow, Nat.reduceMod, Nat.reducePow]
  omega

theorem toNat_x (word : UInt16) : (ofWord word).x.toNat = word.toNat / 256 % 16 := by
  rw [← Nat.shiftRight_eq_div_pow word.toNat 8]
  exact toNat_digit word 8

theorem toNat_y (word : UInt16) : (ofWord word).y.toNat = word.toNat / 16 % 16 := by
  rw [← Nat.shiftRight_eq_div_pow word.toNat 4]
  exact toNat_digit word 4

theorem toNat_n (word : UInt16) : (ofWord word).n.toNat = word.toNat % 16 := toNat_low_digit word

theorem toNat_nn (word : UInt16) : (ofWord word).nn.toNat = word.toNat % 256 := by
  have byte : (word &&& 0xFF).toNat = word.toNat % 256 := by
    rw [UInt16.toNat_and]
    exact Nat.and_two_pow_sub_one_eq_mod _ 8
  simp only [ofWord, UInt16.toNat_toUInt8, byte]
  omega

theorem toNat_nnn (word : UInt16) : (ofWord word).nnn.toNat = word.toNat % 4096 := by
  simp only [ofWord, UInt16.toNat_and]
  exact Nat.and_two_pow_sub_one_eq_mod _ 12

end Fields

def Arithmetic.digit : Arithmetic → Nat
  | copy => 0x0
  | or => 0x1
  | and => 0x2
  | xor => 0x3
  | add => 0x4
  | subtract => 0x5
  | shiftRight => 0x6
  | subtractFrom => 0x7
  | shiftLeft => 0xE

theorem Arithmetic.digit_lt (op : Arithmetic) : op.digit < 16 := by
  cases op <;> decide

theorem Fields.arithmetic?_of_digit {f : Fields} {op : Arithmetic} (h : f.n = .ofNat op.digit) :
    f.arithmetic? = some op := by
  cases op <;> simp [arithmetic?, h, Arithmetic.digit]

namespace Instruction

def lowByte? : Instruction → Option Nat
  | .readDelay _ => some 0x07
  | .awaitKey _ => some 0x0A
  | .setDelay _ => some 0x15
  | .setSound _ => some 0x18
  | .addIndex _ => some 0x1E
  | .selectGlyph _ => some 0x29
  | .storeDigits _ => some 0x33
  | .storeRegisters _ => some 0x55
  | .loadRegisters _ => some 0x65
  | _ => none

end Instruction

namespace Fields

variable {f : Fields} {i : Instruction} {low : Nat}

theorem lowByte?_of_miscellaneous? (h : f.miscellaneous? = some i) :
    i.lowByte? = some f.nn.toNat := by
  simp only [miscellaneous?] at h
  split at h <;> cases h <;> rename_i byte <;> rw [byte] <;> rfl

/-- Only family `F` has instructions that go by the low byte and a register. -/
theorem miscellaneous?_of_lowByte? (h : f.instruction? = some i) (hl : i.lowByte? = some low) :
    15 ≤ f.i.toNat ∧ f.miscellaneous? = some i := by
  simp only [instruction?] at h
  split at h
  case h_1 | h_15 => split at h <;> cases h <;> cases hl
  case h_9 =>
    obtain ⟨op, -, rfl⟩ := Option.map_eq_some_iff.mp h
    cases hl
  case h_16 =>
    refine ⟨?_, h⟩
    simp only [imp_false, ← UInt8.toNat_inj, UInt8.reduceToNat] at *
    omega
  all_goals
    cases h
    cases hl

end Fields

namespace Instruction

variable {word : UInt16} {i : Instruction}

theorem instruction?_of_ofWord (h : ofWord word = .ok i) :
    (Fields.ofWord word).instruction? = some i :=
  Fields.decode_eq_ok_iff.mp h

theorem ofWord_of_instruction? (h : (Fields.ofWord word).instruction? = some i) :
    ofWord word = .ok i :=
  Fields.decode_eq_ok_iff.mpr h

theorem ofWord_arithmetic {op : Arithmetic} {x y : Fin 16} :
    ofWord (.ofNat (0x8000 + 0x100 * x.val + 0x10 * y.val + op.digit)) =
      .ok (.arithmetic op (.ofNat x.val) (.ofNat y.val)) := by
  have small := op.digit_lt
  generalize hw : UInt16.ofNat (0x8000 + 0x100 * x.val + 0x10 * y.val + op.digit) = word
  have number : word.toNat = 0x8000 + 0x100 * x.val + 0x10 * y.val + op.digit := by
    rw [← hw, UInt16.toNat_ofNat']
    omega
  have hi : (Fields.ofWord word).i = 8 := by
    apply UInt8.toNat_inj.mp
    simp only [Fields.toNat_i, UInt8.reduceToNat]
    omega
  have hx : (Fields.ofWord word).x = .ofNat x.val := by
    apply UInt8.toNat_inj.mp
    rw [Fields.toNat_x, UInt8.toNat_ofNat']
    omega
  have hy : (Fields.ofWord word).y = .ofNat y.val := by
    apply UInt8.toNat_inj.mp
    rw [Fields.toNat_y, UInt8.toNat_ofNat']
    omega
  have hn : (Fields.ofWord word).n = .ofNat op.digit := by
    apply UInt8.toNat_inj.mp
    rw [Fields.toNat_n, UInt8.toNat_ofNat']
    omega
  apply ofWord_of_instruction?
  simp only [Fields.instruction?, hi, Fields.arithmetic?_of_digit hn, hx, hy, Option.map_some]

theorem ofWord_of_lowByte? {x : Fin 16} {low : Nat} (h : i.lowByte? = some low)
    (named : i.operands = [.ofNat x.val]) :
    ofWord (.ofNat (0xF000 + 0x100 * x.val + low)) = .ok i := by
  have small : low < 256 := by
    cases i <;> cases h <;> decide
  generalize hw : UInt16.ofNat (0xF000 + 0x100 * x.val + low) = word
  have number : word.toNat = 0xF000 + 0x100 * x.val + low := by
    rw [← hw, UInt16.toNat_ofNat']
    omega
  have hi : (Fields.ofWord word).i = 15 := by
    apply UInt8.toNat_inj.mp
    simp only [Fields.toNat_i, UInt8.reduceToNat]
    omega
  have hx : (Fields.ofWord word).x = .ofNat x.val := by
    apply UInt8.toNat_inj.mp
    rw [Fields.toNat_x, UInt8.toNat_ofNat']
    omega
  have hn : (Fields.ofWord word).nn = .ofNat low := by
    apply UInt8.toNat_inj.mp
    rw [Fields.toNat_nn, UInt8.toNat_ofNat']
    omega
  apply ofWord_of_instruction?
  cases i <;> cases h <;> cases named <;>
    simp [Fields.instruction?, Fields.miscellaneous?, hi, hx, hn]

theorem exists_of_lowByte? (h : ofWord word = .ok i) {low : Nat} (hl : i.lowByte? = some low) :
    ∃ x : Fin 16, word = .ofNat (0xF000 + 0x100 * x.val + low) ∧ i.operands = [.ofNat x.val] := by
  obtain ⟨family, selected⟩ := Fields.miscellaneous?_of_lowByte? (instruction?_of_ofWord h) hl
  obtain ⟨operands, -⟩ := Fields.operands_miscellaneous? selected
  have byte := hl.symm.trans (Fields.lowByte?_of_miscellaneous? selected)
  have small := word.toNat_lt
  rw [Fields.toNat_i] at family
  rw [Fields.toNat_nn, Option.some.injEq] at byte
  have digit : (Fields.ofWord word).x.toNat < 16 := Fields.toNat_digit_lt (word >>> 8)
  refine ⟨⟨(Fields.ofWord word).x.toNat, digit⟩, ?_, ?_⟩
  · apply UInt16.toNat_inj.mp
    simp only [UInt16.toNat_ofNat', Fields.toNat_x]
    omega
  · rw [operands, UInt8.ofNat_toNat]

theorem toNat_lt_of_mem_operands (h : ofWord word = .ok i) {r : UInt8} (hr : r ∈ i.operands) :
    r.toNat < 16 := by
  obtain ⟨named, -⟩ := Fields.operands_instruction? (instruction?_of_ofWord h)
  rcases named r hr with rfl | rfl
  · exact Fields.toNat_digit_lt (word >>> 8)
  · exact Fields.toNat_digit_lt (word >>> 4)

theorem toNat_lt_of_address? (h : ofWord word = .ok i) {address : UInt16}
    (ha : i.address? = some address) : address.toNat < 0x1000 := by
  obtain ⟨-, held⟩ := Fields.operands_instruction? (instruction?_of_ofWord h)
  rw [held address ha, Fields.toNat_nnn]
  omega

end Instruction

end Chip8
