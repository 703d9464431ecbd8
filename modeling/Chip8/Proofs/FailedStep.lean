import Chip8.Proofs.Cycle
import Chip8.Proofs.Reachable

/-! What a failed step may have changed. The host gets the fault and keeps the machine, so this is
what it can rely on when it goes on with it. -/

namespace Chip8.Machine

/-- Every sum of two addresses that a step asks for has sixteen bits: it is asked for after the
bytes before it were found in memory. -/
structure SumsFit (m : Machine) : Prop where
  fetch : ∀ high, m.memory.read m.pc = .ok high → ∃ next, Memory.offset m.pc 1 = .ok next
  store : ∀ before rest, (m.memory.store m.index 0 before).fault = none →
    m.memory.store m.index 0 (before ++ rest) =
        (m.memory.store m.index 0 before).after.store m.index (.ofNat before.length) rest ∧
      ∃ address, Memory.offset m.index (.ofNat before.length) = .ok address
  gather : ∀ count more, (m.memory.gather m.index 0 count).fault = none →
    m.memory.gather m.index 0 (count + more) =
        (m.memory.gather m.index (.ofNat count) more).map
          ((m.memory.gather m.index 0 count).after ++ ·) ∧
      ∃ address, Memory.offset m.index (.ofNat count) = .ok address

theorem sumsFit (m : Machine) : SumsFit m where
  fetch _ h := Memory.offset_of_read h
  store before rest h := by
    have ha := m.memory.store_append m.index 0 before rest h
    rw [UInt16.zero_add] at ha
    exact ⟨ha, Memory.offset_of_overrun? (m.memory.fault_store_zero m.index before ▸ h)⟩
  gather count more h := by
    have ha := m.memory.gather_add m.index 0 count more h
    rw [UInt16.zero_add] at ha
    exact ⟨ha, Memory.offset_of_overrun? (m.memory.fault_gather_zero m.index count ▸ h)⟩

/-- The machine after a step that failed. An instruction stands for all words that decode to it. -/
structure FailedStep (m after : Machine) (fault : Fault) : Prop where
  unfetched : m.fetch = .error fault ↔ 0xFFF ≤ m.pc.toNat
  untouched : 0xFFF ≤ m.pc.toNat → after = m
  passed : m.pc.toNat < 0xFFF → after.pc.toNat = m.pc.toNat + 2
  others : after =
    { m with pc := after.pc, memory := after.memory, registers := after.registers }
  unknown : ∀ word, fault = .unknownInstruction word ↔
    m.fetch = .ok word ∧ ∀ i, Instruction.ofWord word ≠ .ok i
  underflow : fault = .stackUnderflow ↔ m.Executes .ret ∧ m.stack = []
  overflow : ∀ limit, fault = .stackOverflow limit ↔
    limit = m.settings.stackLimit ∧ m.stack.length = m.settings.stackLimit ∧
      ∃ target, m.Executes (.call target)
  memory : ∀ address, fault = .memory address ↔
    (0xFFF ≤ m.pc.toNat ∧ address = max m.pc 0x1000) ∨
      ∃ i n, m.Executes i ∧ i.reach? = some n ∧ 0x1000 < m.index.toNat + n ∧
        address = max m.index 0x1000
  intact : (∀ address, fault ≠ .memory address) ∨ (∃ x y height, m.Executes (.draw x y height)) →
    after.registers = m.registers ∧ after.memory = m.memory
  written : ∀ a (h : a < 0x1000), after.memory.bytes[a] ≠ m.memory.bytes[a] →
    m.index.toNat ≤ a ∧
      ∃ x, m.Executes (.storeDigits x) ∨ m.Executes (.storeRegisters x)
  filled : ∀ r : Fin 16, after.registers.get r ≠ m.registers.get r →
    ∃ x, m.Executes (.loadRegisters x) ∧ r.val ≤ x.toNat

section

variable {m : Machine} {input : Input} {fault other : Fault}

theorem eq_of_fault_step (h : (m.step input).fault = some fault)
    (h' : (m.step input).fault = some other) : fault = other :=
  Option.some.inj (h.symm.trans h')

theorem unknown_of_fault_step (h : (m.step input).fault = some fault) (word : UInt16) :
    fault = .unknownInstruction word ↔
      m.fetch = .ok word ∧ ∀ i, Instruction.ofWord word ≠ .ok i := by
  constructor
  · rintro rfl
    rcases fault_step_iff.mp h with ⟨_, he⟩ | ⟨word', hf, hu, he⟩ | ⟨_, _, he⟩ | ⟨_, _, he⟩ |
      ⟨_, _, _, _, _, he⟩ <;> cases he
    exact ⟨hf, hu⟩
  · rintro ⟨hf, hu⟩
    exact eq_of_fault_step h (fault_step_iff.mpr (Or.inr (Or.inl ⟨word, hf, hu, rfl⟩)))

theorem underflow_of_fault_step (h : (m.step input).fault = some fault) :
    fault = .stackUnderflow ↔ m.Executes .ret ∧ m.stack = [] := by
  constructor
  · rintro rfl
    rcases fault_step_iff.mp h with ⟨_, he⟩ | ⟨_, _, _, he⟩ | ⟨hi, hs, _⟩ | ⟨_, _, he⟩ |
      ⟨_, _, _, _, _, he⟩
    any_goals cases he
    exact ⟨hi, hs⟩
  · rintro ⟨hi, hs⟩
    exact eq_of_fault_step h (fault_step_iff.mpr (Or.inr (Or.inr (Or.inl ⟨hi, hs, rfl⟩))))

/-- The stack never holds more than its limit, so it is full when a call is refused. -/
theorem overflow_of_fault_step (hl : m.stack.length ≤ m.settings.stackLimit)
    (h : (m.step input).fault = some fault) (limit : Nat) :
    fault = .stackOverflow limit ↔
      limit = m.settings.stackLimit ∧ m.stack.length = m.settings.stackLimit ∧
        ∃ target, m.Executes (.call target) := by
  constructor
  · rintro rfl
    rcases fault_step_iff.mp h with ⟨_, he⟩ | ⟨_, _, _, he⟩ | ⟨_, _, he⟩ | ⟨hi, hs, he⟩ |
      ⟨_, _, _, _, _, he⟩ <;> cases he
    exact ⟨rfl, Nat.le_antisymm hl hs, hi⟩
  · rintro ⟨rfl, hs, hi⟩
    exact eq_of_fault_step h (fault_step_iff.mpr
      (Or.inr (Or.inr (Or.inr (Or.inl ⟨hi, Nat.le_of_eq hs.symm, rfl⟩)))))

theorem memory_of_fault_step (h : (m.step input).fault = some fault) (address : UInt16) :
    fault = .memory address ↔
      (0xFFF ≤ m.pc.toNat ∧ address = max m.pc 0x1000) ∨
        ∃ i n, m.Executes i ∧ i.reach? = some n ∧ 0x1000 < m.index.toNat + n ∧
          address = max m.index 0x1000 := by
  constructor
  · rintro rfl
    rcases fault_step_iff.mp h with ⟨hl, he⟩ | ⟨_, _, _, he⟩ | ⟨_, _, he⟩ | ⟨_, _, he⟩ |
      ⟨i, n, hi, hn, hx, he⟩ <;> cases he
    · exact Or.inl ⟨hl, rfl⟩
    · exact Or.inr ⟨i, n, hi, hn, hx, rfl⟩
  · rintro (⟨hl, rfl⟩ | ⟨i, n, hi, hn, hx, rfl⟩)
    · exact eq_of_fault_step h (fault_step_iff.mpr (Or.inl ⟨hl, rfl⟩))
    · exact eq_of_fault_step h (fault_step_iff.mpr
        (Or.inr (Or.inr (Or.inr (Or.inr ⟨i, n, hi, hn, hx, rfl⟩)))))

theorem unfetched_of_fault_step (h : (m.step input).fault = some fault) :
    m.fetch = .error fault ↔ 0xFFF ≤ m.pc.toNat := by
  constructor
  · intro hf
    apply Nat.not_lt.mp
    intro hl
    obtain ⟨word, hw⟩ := fetch_of_lt hl
    rw [hw] at hf
    cases hf
  · intro hl
    obtain rfl := eq_of_fault_step h (fault_step_iff.mpr (Or.inl ⟨hl, rfl⟩))
    exact fetch_of_le hl

/-- Only a transfer leaves more behind than the way past its word. -/
theorem after_of_fault_step (h : (m.step input).fault = some fault) :
    (0xFFF ≤ m.pc.toNat ∧ (m.step input).after = m) ∨
      (m.pc.toNat < 0xFFF ∧ (m.step input).after = m.pastWord) ∨
      (m.pc.toNat < 0xFFF ∧ ∃ i, m.Executes i ∧
        (∃ x, i = .storeDigits x ∨ i = .storeRegisters x ∨ i = .loadRegisters x) ∧
        Refused m.pastWord (m.step input).after i) := by
  rcases m.step_cases input with ⟨hl, hs⟩ | ⟨word, hw, -, hs, -⟩ | ⟨i, hi, hs, hf⟩
  · rw [hs]
    exact Or.inl ⟨hl, rfl⟩
  · exact Or.inr (Or.inl ⟨lt_of_fetch hw, hs⟩)
  · rw [hf] at h
    rw [hs]
    rcases after_of_refused h with hx | hp
    · exact Or.inr (Or.inr ⟨hi.lt, i, hi, hx, refused_execute h⟩)
    · exact Or.inr (Or.inl ⟨hi.lt, hp⟩)

theorem passed_of_fault_step (h : (m.step input).fault = some fault)
    (hl : m.pc.toNat < 0xFFF) : (m.step input).after.pc.toNat = m.pc.toNat + 2 := by
  have hp := toNat_pc_pastWord hl
  rcases after_of_fault_step h with ⟨hg, -⟩ | ⟨-, hs⟩ | ⟨-, i, -, -, hr⟩
  · omega
  · rwa [hs]
  · rw [hr.others]
    exact hp

theorem others_of_fault_step (h : (m.step input).fault = some fault) :
    (m.step input).after = { m with
      pc := (m.step input).after.pc
      memory := (m.step input).after.memory
      registers := (m.step input).after.registers } := by
  rcases after_of_fault_step h with ⟨-, hs⟩ | ⟨-, hs⟩ | ⟨-, i, -, -, hr⟩
  · rw [hs]
  · rw [hs]
    rfl
  · have hc := congrArg Machine.pc hr.others
    rw [hc]
    exact hr.others

theorem intact_of_fault_step (h : (m.step input).fault = some fault)
    (hi : (∀ address, fault ≠ .memory address) ∨ ∃ x y height, m.Executes (.draw x y height)) :
    (m.step input).after.registers = m.registers ∧
      (m.step input).after.memory = m.memory := by
  rcases after_of_fault_step h with ⟨-, hs⟩ | ⟨-, hs⟩ | ⟨hl, i, hx, ⟨x, hk⟩, -⟩
  · rw [hs]
    exact ⟨rfl, rfl⟩
  · rw [hs]
    exact ⟨rfl, rfl⟩
  · -- a transfer fails with a memory fault only
    exfalso
    rcases hi with hm | ⟨a, b, height, hd⟩
    · rcases fault_step_iff.mp h with ⟨_, he⟩ | ⟨word, hf, hu, _⟩ | ⟨hr, _⟩ | ⟨⟨t, hc⟩, _⟩ |
        ⟨_, _, _, _, _, he⟩
      · exact hm _ he
      · exact hu i (hx.ofWord hf)
      · obtain rfl := hx.unique hr
        simp at hk
      · obtain rfl := hx.unique hc
        simp at hk
      · exact hm _ he
    · obtain rfl := hx.unique hd
      simp at hk

theorem written_of_fault_step (h : (m.step input).fault = some fault) (a : Nat)
    (ha : a < 0x1000) (hc : (m.step input).after.memory.bytes[a] ≠ m.memory.bytes[a]) :
    m.index.toNat ≤ a ∧ ∃ x, m.Executes (.storeDigits x) ∨ m.Executes (.storeRegisters x) := by
  rcases after_of_fault_step h with ⟨-, hs⟩ | ⟨-, hs⟩ | ⟨-, i, hi, -, hr⟩
  · simp [hs] at hc
  · simp [hs, pastWord] at hc
  · obtain ⟨hl, x, rfl | rfl⟩ := hr.written a ha hc
    · exact ⟨hl, x, Or.inl hi⟩
    · exact ⟨hl, x, Or.inr hi⟩

theorem filled_of_fault_step (h : (m.step input).fault = some fault) (r : Fin 16)
    (hc : (m.step input).after.registers.get r ≠ m.registers.get r) :
    ∃ x, m.Executes (.loadRegisters x) ∧ r.val ≤ x.toNat := by
  rcases after_of_fault_step h with ⟨-, hs⟩ | ⟨-, hs⟩ | ⟨-, i, hi, -, hr⟩
  · simp [hs] at hc
  · simp [hs, pastWord] at hc
  · obtain ⟨x, rfl, hx⟩ := hr.filled r hc
    exact ⟨x, hi, hx⟩

end

theorem failed_step {settings : Settings} {m : Machine} (hm : m.Reachable settings)
    {input : Input} {fault : Fault} (h : (m.step input).fault = some fault) :
    FailedStep m (m.step input).after fault ∧ m.SumsFit := by
  refine ⟨?_, m.sumsFit⟩
  constructor
  · exact unfetched_of_fault_step h
  · intro hl
    rcases after_of_fault_step h with ⟨-, hs⟩ | ⟨hg, -⟩ | ⟨hg, -⟩
    · exact hs
    · omega
    · omega
  · exact passed_of_fault_step h
  · exact others_of_fault_step h
  · exact unknown_of_fault_step h
  · exact underflow_of_fault_step h
  · exact overflow_of_fault_step hm.stack_le h
  · exact memory_of_fault_step h
  · exact intact_of_fault_step h
  · exact written_of_fault_step h
  · exact filled_of_fault_step h

/-- Two registers go to the last byte of memory, where there is room for one. -/
theorem failed_step_last_byte :
    let rom : Rom := ⟨#[0x60, 0x07, 0xAF, 0xFF, 0xF1, 0x55]⟩
    let m := (((boot rom {} (.replicate 8 0)).after.step .silent).after.step .silent).after
    (m.step .silent).fault = some (.memory 0x1000) ∧
      FailedStep m (m.step .silent).after (.memory 0x1000) ∧ m.SumsFit ∧
      m.memory.bytes[0xFFF] = 0 ∧ (m.step .silent).after.memory.bytes[0xFFF] = 7 := by
  intro rom m
  have hm : m.Reachable {} :=
    .obey .silent .step (.obey .silent .step (.boot rom (.replicate 8 0) (by decide +kernel)))
  have h : (m.step .silent).fault = some (.memory 0x1000) := by decide +kernel
  obtain ⟨failed, sums⟩ := failed_step hm h
  exact ⟨h, failed, sums, by decide +kernel, by decide +kernel⟩

end Chip8.Machine
