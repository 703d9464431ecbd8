import Chip8.Instruction.Lemmas

/-! Which words are instructions, and which of them are the same one. Only four families have words
that stand for nothing. An instruction gives its word back but for the digits that its family does
not look at, so two words are the same instruction when they differ in no other digits. -/

namespace Chip8

namespace Fields

variable {f : Fields} {i : Instruction} {fault : Fault}

/-- The fields select nothing. The families `0`, `8`, `E` and `F` go by a second field, and the last
of them is also that of everything above it. -/
def Unknown (f : Fields) : Prop :=
  f.i = 0x0 ∧ f.nn ∉ [0xE0, 0xEE] ∨
  f.i = 0x8 ∧ f.n ∉ [0x0, 0x1, 0x2, 0x3, 0x4, 0x5, 0x6, 0x7, 0xE] ∨
  f.i = 0xE ∧ f.nn ∉ [0x9E, 0xA1] ∨
  0xF ≤ f.i ∧ f.nn ∉ [0x07, 0x0A, 0x15, 0x18, 0x1E, 0x29, 0x33, 0x55, 0x65]

instance (f : Fields) : Decidable f.Unknown := inferInstanceAs (Decidable (_ ∨ _))

theorem arithmetic?_eq_none_iff :
    f.arithmetic? = none ↔ f.n ∉ [0x0, 0x1, 0x2, 0x3, 0x4, 0x5, 0x6, 0x7, 0xE] := by
  unfold arithmetic?
  split <;> simp_all

theorem miscellaneous?_eq_none_iff : f.miscellaneous? = none ↔
    f.nn ∉ [0x07, 0x0A, 0x15, 0x18, 0x1E, 0x29, 0x33, 0x55, 0x65] := by
  unfold miscellaneous?
  split <;> simp_all

theorem instruction?_eq_none_iff : f.instruction? = none ↔ f.Unknown := by
  unfold instruction? Unknown
  split
  case h_1 | h_15 => split <;> simp_all
  case h_9 family =>
    rw [Option.map_eq_none_iff, arithmetic?_eq_none_iff]
    simp [family]
  case h_16 =>
    have others : f.i ≠ 0x0 ∧ f.i ≠ 0x8 ∧ f.i ≠ 0xE := by
      refine ⟨?_, ?_, ?_⟩ <;> assumption
    have last : 0xF ≤ f.i := by
      simp only [imp_false, ← UInt8.toNat_inj, UInt8.le_iff_toNat_le, UInt8.reduceToNat] at *
      omega
    rw [miscellaneous?_eq_none_iff]
    simp [others, last]
  all_goals
    rename_i family
    simp [family]

/-- Decoding fails where no instruction has the fields, and reports the word they came from. -/
theorem decode_eq_error_iff :
    f.decode = .error fault ↔ f.Unknown ∧ fault = .unknownInstruction f.raw := by
  rw [← instruction?_eq_none_iff]
  unfold decode
  cases f.instruction? with
  | some i => simp
  | none => simp [eq_comm]

theorem decode_of_raw (raw : UInt16) (h : f.decode = .ok i) :
    ({ f with raw } : Fields).decode = .ok i := by
  have same : ({ f with raw } : Fields).instruction? = f.instruction? := rfl
  rw [decode_eq_ok_iff, same]
  exact decode_eq_ok_iff.mp h

/-- A word is put together again from its family and an address. -/
theorem toNat_eq_address (word : UInt16) :
    word.toNat = 0x1000 * (ofWord word).i.toNat + (ofWord word).nnn.toNat := by
  rw [toNat_i, toNat_nnn]
  omega

theorem toNat_eq_byte (word : UInt16) :
    word.toNat =
      0x1000 * (ofWord word).i.toNat + 0x100 * (ofWord word).x.toNat + (ofWord word).nn.toNat := by
  rw [toNat_i, toNat_x, toNat_nn]
  omega

theorem toNat_eq_digits (word : UInt16) :
    word.toNat = 0x1000 * (ofWord word).i.toNat + 0x100 * (ofWord word).x.toNat +
      0x10 * (ofWord word).y.toNat + (ofWord word).n.toNat := by
  rw [toNat_i, toNat_x, toNat_y, toNat_n]
  omega

end Fields

namespace Instruction

variable {word other : UInt16} {i j : Instruction}

def digit (word : UInt16) (unit : Nat) : Nat := word.toNat / unit % 16

/-- The words are the same but for digits that their family does not look at. -/
def Alike (word other : UInt16) : Prop :=
  word = other ∨
  (digit word 0x1000 = 0 ∧ digit other 0x1000 = 0) ∧ word.toNat % 256 = other.toNat % 256 ∨
  ((digit word 0x1000 = 5 ∧ digit other 0x1000 = 5) ∨
      (digit word 0x1000 = 9 ∧ digit other 0x1000 = 9)) ∧
    digit word 0x100 = digit other 0x100 ∧ digit word 0x10 = digit other 0x10

instance (word other : UInt16) : Decidable (Alike word other) :=
  inferInstanceAs (Decidable (_ ∨ _))

def number : Instruction → Nat
  | .clear => 0x00E0
  | .ret => 0x00EE
  | .jump target => 0x1000 + target.toNat
  | .call target => 0x2000 + target.toNat
  | .skipEqual x byte => 0x3000 + 0x100 * x.toNat + byte.toNat
  | .skipUnequal x byte => 0x4000 + 0x100 * x.toNat + byte.toNat
  | .skipSame x y => 0x5000 + 0x100 * x.toNat + 0x10 * y.toNat
  | .load x byte => 0x6000 + 0x100 * x.toNat + byte.toNat
  | .add x byte => 0x7000 + 0x100 * x.toNat + byte.toNat
  | .arithmetic op x y => 0x8000 + 0x100 * x.toNat + 0x10 * y.toNat + op.digit
  | .skipDifferent x y => 0x9000 + 0x100 * x.toNat + 0x10 * y.toNat
  | .setIndex address => 0xA000 + address.toNat
  | .jumpOffset base => 0xB000 + base.toNat
  | .random x mask => 0xC000 + 0x100 * x.toNat + mask.toNat
  | .draw x y height => 0xD000 + 0x100 * x.toNat + 0x10 * y.toNat + height.toNat
  | .skipHeld x => 0xE000 + 0x100 * x.toNat + 0x9E
  | .skipReleased x => 0xE000 + 0x100 * x.toNat + 0xA1
  | .readDelay x => 0xF000 + 0x100 * x.toNat + 0x07
  | .awaitKey x => 0xF000 + 0x100 * x.toNat + 0x0A
  | .setDelay x => 0xF000 + 0x100 * x.toNat + 0x15
  | .setSound x => 0xF000 + 0x100 * x.toNat + 0x18
  | .addIndex x => 0xF000 + 0x100 * x.toNat + 0x1E
  | .selectGlyph x => 0xF000 + 0x100 * x.toNat + 0x29
  | .storeDigits x => 0xF000 + 0x100 * x.toNat + 0x33
  | .storeRegisters x => 0xF000 + 0x100 * x.toNat + 0x55
  | .loadRegisters x => 0xF000 + 0x100 * x.toNat + 0x65

def significant (word : UInt16) : Nat :=
  match digit word 0x1000 with
  | 0 => word.toNat % 256
  | 5 | 9 => word.toNat - digit word 1
  | _ => word.toNat

theorem digit_family (word : UInt16) : digit word 0x1000 = (Fields.ofWord word).i.toNat := by
  have small := word.toNat_lt
  rw [Fields.toNat_i]
  simp only [digit]
  omega

theorem digit_x (word : UInt16) : digit word 0x100 = (Fields.ofWord word).x.toNat :=
  (Fields.toNat_x word).symm

theorem digit_y (word : UInt16) : digit word 0x10 = (Fields.ofWord word).y.toNat :=
  (Fields.toNat_y word).symm

theorem digit_last (word : UInt16) : digit word 1 = (Fields.ofWord word).n.toNat := by
  rw [Fields.toNat_n, digit, Nat.div_one]

theorem digit_of_arithmetic? {f : Fields} {op : Arithmetic} (h : f.arithmetic? = some op) :
    op.digit = f.n.toNat := by
  unfold Fields.arithmetic? at h
  split at h <;> cases h <;> rename_i last <;> rw [last] <;> rfl

theorem number_of_lowByte? {x : UInt8} {low : Nat} (h : i.lowByte? = some low)
    (named : i.operands = [x]) : i.number = 0xF000 + 0x100 * x.toNat + low := by
  cases i <;> cases h <;> cases named <;> rfl

theorem number_eq_significant (h : ofWord word = .ok i) : i.number = significant word := by
  have selected := instruction?_of_ofWord h
  have digits := Fields.toNat_eq_digits word
  have byte := Fields.toNat_eq_byte word
  have address := Fields.toNat_eq_address word
  simp only [Fields.instruction?] at selected
  rw [significant, digit_family, digit_last]
  split at selected
  case h_1 zero =>
    rw [zero]
    have low := Fields.toNat_nn word
    split at selected <;> cases selected <;> rename_i code <;> rw [code] at low <;> exact low
  case h_2 family | h_3 family | h_11 family | h_12 family =>
    cases selected
    rw [family] at address ⊢
    exact address.symm
  case h_4 family | h_5 family | h_7 family | h_8 family | h_13 family =>
    cases selected
    rw [family] at byte ⊢
    exact byte.symm
  case h_6 family | h_10 family =>
    cases selected
    rw [family] at digits ⊢
    exact (Nat.sub_eq_of_eq_add digits).symm
  case h_9 eight =>
    obtain ⟨op, found, rfl⟩ := Option.map_eq_some_iff.mp selected
    rw [eight] at digits ⊢
    rw [number, digit_of_arithmetic? found]
    exact digits.symm
  case h_14 family =>
    cases selected
    rw [family] at digits ⊢
    exact digits.symm
  case h_15 family =>
    rw [family] at byte ⊢
    split at selected <;> cases selected <;> rename_i code <;> rw [code] at byte <;>
      exact byte.symm
  case h_16 =>
    have last : (Fields.ofWord word).i.toNat = 15 := by
      have small := word.toNat_lt
      simp only [imp_false, ← UInt8.toNat_inj, UInt8.reduceToNat] at *
      omega
    obtain ⟨named, -⟩ := Fields.operands_miscellaneous? selected
    rw [number_of_lowByte? (Fields.lowByte?_of_miscellaneous? selected) named, last]
    rw [last] at byte
    exact byte.symm

theorem significant_div (word : UInt16) : significant word / 4096 = digit word 0x1000 := by
  have small := word.toNat_lt
  simp only [significant, digit]
  split <;> omega

theorem digits_of_upper (h : word.toNat - digit word 1 = other.toNat - digit other 1) :
    digit word 0x100 = digit other 0x100 ∧ digit word 0x10 = digit other 0x10 := by
  have upper : word.toNat / 16 = other.toNat / 16 := by
    simp only [digit] at h
    omega
  simp only [digit]
  omega

/-- The digits that are looked at tell the family too, so they leave nothing else open. -/
theorem alike_of_significant_eq (h : significant word = significant other) : Alike word other := by
  have family : digit word 0x1000 = digit other 0x1000 := by
    rw [← significant_div, ← significant_div, h]
  unfold significant at h
  rw [family] at h
  split at h
  case h_1 zero => exact Or.inr (Or.inl ⟨⟨family.trans zero, zero⟩, h⟩)
  case h_2 five => exact Or.inr (Or.inr ⟨Or.inl ⟨family.trans five, five⟩, digits_of_upper h⟩)
  case h_3 nine => exact Or.inr (Or.inr ⟨Or.inr ⟨family.trans nine, nine⟩, digits_of_upper h⟩)
  case h_4 => exact Or.inl (UInt16.toNat_inj.mp h)

theorem i_of_digit {family : UInt8} (h : digit word 0x1000 = family.toNat) :
    (Fields.ofWord word).i = family :=
  UInt8.toNat_inj.mp ((digit_family word).symm.trans h)

theorem instruction?_of_alike (h : Alike word other) :
    (Fields.ofWord word).instruction? = (Fields.ofWord other).instruction? := by
  rcases h with rfl | ⟨⟨zero, otherZero⟩, low⟩ | ⟨family, two, one⟩
  · rfl
  · have byte : (Fields.ofWord word).nn = (Fields.ofWord other).nn := by
      rw [← UInt8.toNat_inj, Fields.toNat_nn, Fields.toNat_nn, low]
    have first : (Fields.ofWord word).i = 0 := i_of_digit zero
    have second : (Fields.ofWord other).i = 0 := i_of_digit otherZero
    simp only [Fields.instruction?, first, second, byte]
  · have x : (Fields.ofWord word).x = (Fields.ofWord other).x := by
      rw [← UInt8.toNat_inj, ← digit_x, ← digit_x, two]
    have y : (Fields.ofWord word).y = (Fields.ofWord other).y := by
      rw [← UInt8.toNat_inj, ← digit_y, ← digit_y, one]
    rcases family with ⟨five, otherFive⟩ | ⟨nine, otherNine⟩
    · have first : (Fields.ofWord word).i = 5 := i_of_digit five
      have second : (Fields.ofWord other).i = 5 := i_of_digit otherFive
      simp only [Fields.instruction?, first, second, x, y]
    · have first : (Fields.ofWord word).i = 9 := i_of_digit nine
      have second : (Fields.ofWord other).i = 9 := i_of_digit otherNine
      simp only [Fields.instruction?, first, second, x, y]

/-- The digits that are looked at are all that an instruction tells of its word. -/
theorem eq_iff_alike (hi : ofWord word = .ok i) (hj : ofWord other = .ok j) :
    i = j ↔ Alike word other := by
  constructor
  · rintro rfl
    apply alike_of_significant_eq
    rw [← number_eq_significant hi, ← number_eq_significant hj]
  · intro alike
    have same := instruction?_of_alike alike
    rw [instruction?_of_ofWord hi, instruction?_of_ofWord hj] at same
    exact Option.some.inj same

def height? : Instruction → Option UInt8
  | .draw _ _ height => some height
  | _ => none

theorem height_of_instruction? {f : Fields} {height : UInt8} (h : f.instruction? = some i)
    (drawn : i.height? = some height) : height = f.n := by
  simp only [Fields.instruction?] at h
  split at h
  case h_1 | h_15 => split at h <;> cases h <;> cases drawn
  case h_9 =>
    obtain ⟨op, -, rfl⟩ := Option.map_eq_some_iff.mp h
    cases drawn
  case h_16 =>
    have low := Fields.lowByte?_of_miscellaneous? h
    cases i <;> cases drawn
    cases low
  case h_14 =>
    cases h
    cases drawn
    rfl
  all_goals
    cases h
    cases drawn

theorem toNat_lt_of_height? (h : ofWord word = .ok i) {height : UInt8}
    (drawn : i.height? = some height) : height.toNat < 16 := by
  rw [height_of_instruction? (instruction?_of_ofWord h) drawn]
  exact Fields.toNat_digit_lt word

theorem decoded_by_grammar :
    (∀ (f : Fields) (fault : Fault),
      f.decode = .error fault ↔ f.Unknown ∧ fault = .unknownInstruction f.raw) ∧
    (∀ (f : Fields) (raw : UInt16) (i : Instruction),
      f.decode = .ok i → ({ f with raw } : Fields).decode = .ok i) ∧
    (∀ (word other : UInt16) (i j : Instruction),
      ofWord word = .ok i → ofWord other = .ok j → (i = j ↔ Alike word other)) ∧
    ∀ (word : UInt16) (i : Instruction), ofWord word = .ok i →
      (∀ r ∈ i.operands, r.toNat ≤ 0xF) ∧
      (∀ height, i.height? = some height → height.toNat ≤ 0xF) ∧
      ∀ address, i.address? = some address → address.toNat ≤ 0xFFF := by
  refine ⟨fun f fault => Fields.decode_eq_error_iff, fun f raw i => Fields.decode_of_raw raw,
    fun word other i j => eq_iff_alike, ?_⟩
  intro word i decoded
  refine ⟨?_, ?_, ?_⟩
  · intro r named
    exact Nat.le_of_lt_succ (toNat_lt_of_mem_operands decoded named)
  · intro height drawn
    exact Nat.le_of_lt_succ (toNat_lt_of_height? decoded drawn)
  · intro address held
    exact Nat.le_of_lt_succ (toNat_lt_of_address? decoded held)

/-- Fields that no word has, once with a code of the last family and once without. Then words that
differ where their families do not look, and words that differ where they do. -/
theorem decoded_by_grammar_far_fields :
    let f : Fields := ⟨0x1234, 0x20, 0xFF, 0x80, 0x99, 0x33, 0xFFFF⟩
    f.decode = .ok (.storeDigits 0xFF) ∧
      ({ f with raw := 0xABCD } : Fields).decode = .ok (.storeDigits 0xFF) ∧
      ({ f with nn := 0x34 } : Fields).decode = .error (.unknownInstruction 0x1234) ∧
      ofWord 0x0FE0 = .ok .clear ∧ ofWord 0x00E0 = .ok .clear ∧ Alike 0x0FE0 0x00E0 ∧
      ofWord 0x5A7C = .ok (.skipSame 0xA 0x7) ∧ ofWord 0x9A7C = .ok (.skipDifferent 0xA 0x7) ∧
      ¬Alike 0x5A7C 0x9A7C ∧
      ofWord 0xDFE9 = .ok (.draw 0xF 0xE 0x9) ∧ (0x9 : UInt8).toNat ≤ 0xF := by
  intro f
  obtain ⟨refused, unaware, kernel, ranges⟩ := decoded_by_grammar
  have digits : f.decode = .ok (.storeDigits 0xFF) := by rfl
  have clear : ofWord 0x0FE0 = .ok .clear := by rfl
  have plain : ofWord 0x00E0 = .ok .clear := by rfl
  have same : ofWord 0x5A7C = .ok (.skipSame 0xA 0x7) := by rfl
  have different : ofWord 0x9A7C = .ok (.skipDifferent 0xA 0x7) := by rfl
  have sprite : ofWord 0xDFE9 = .ok (.draw 0xF 0xE 0x9) := by rfl
  refine ⟨digits, unaware f 0xABCD _ digits, (refused _ _).mpr ⟨by decide, rfl⟩, clear, plain,
    (kernel _ _ _ _ clear plain).mp rfl, same, different, ?_, sprite,
    (ranges _ _ sprite).2.1 0x9 rfl⟩
  rw [← kernel _ _ _ _ same different]
  exact Instruction.noConfusion

end Instruction

end Chip8
