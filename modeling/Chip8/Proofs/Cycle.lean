import Chip8.Machine
import Chip8.Proofs.Transfers

/-! What a cycle can come to, and which instructions are refused. An instruction that is refused
leaves all but registers and memory alone, and those change only as far as a transfer got. -/

namespace Chip8

def Instruction.reach? : Instruction → Option Nat
  | .draw _ _ height => some height.toNat
  | .storeDigits _ => some 3
  | .storeRegisters x | .loadRegisters x => some (x.toNat % 16 + 1)
  | _ => none

theorem Instruction.fault_ofWord {word : UInt16} {fault : Fault}
    (h : Instruction.ofWord word = .error fault) : fault = .unknownInstruction word := by
  simp only [ofWord, Fields.decode] at h
  split at h
  · cases h
  · cases h
    rfl

namespace Machine

def Executes (m : Machine) (instruction : Instruction) : Prop :=
  ∃ word, m.fetch = .ok word ∧ Instruction.ofWord word = .ok instruction

theorem Executes.ofWord {m : Machine} {i : Instruction} {word : UInt16} (h : m.Executes i)
    (hf : m.fetch = .ok word) : Instruction.ofWord word = .ok i := by
  obtain ⟨other, hf', hi⟩ := h
  rw [hf] at hf'
  cases hf'
  exact hi

theorem Executes.unique {m : Machine} {i j : Instruction} (hi : m.Executes i)
    (hj : m.Executes j) : i = j := by
  obtain ⟨word, hf, hw⟩ := hi
  have hv := hj.ofWord hf
  rw [hw] at hv
  cases hv
  rfl

theorem fetch_of_lt {m : Machine} (h : m.pc.toNat < 0xFFF) : ∃ word, m.fetch = .ok word :=
  ⟨_, m.memory.word_of_lt h⟩

theorem fetch_of_le {m : Machine} (h : 0xFFF ≤ m.pc.toNat) :
    m.fetch = .error (.memory (max m.pc 0x1000)) :=
  m.memory.word_of_le h

theorem lt_of_fetch {m : Machine} {word : UInt16} (h : m.fetch = .ok word) :
    m.pc.toNat < 0xFFF := by
  apply Nat.not_le.mp
  intro hl
  rw [fetch_of_le hl] at h
  cases h

theorem Executes.lt {m : Machine} {i : Instruction} (h : m.Executes i) :
    m.pc.toNat < 0xFFF := by
  obtain ⟨word, hf, -⟩ := h
  exact lt_of_fetch hf

theorem toNat_pc_pastWord {m : Machine} (h : m.pc.toNat < 0xFFF) :
    m.pastWord.pc.toNat = m.pc.toNat + 2 := by
  simp only [pastWord, UInt16.toNat_add, UInt16.reduceToNat]
  omega

theorem step_cases (m : Machine) (input : Input) :
    (0xFFF ≤ m.pc.toNat ∧
        m.step input = { after := m, fault := some (.memory (max m.pc 0x1000)) }) ∨
      (∃ word, m.fetch = .ok word ∧ (∀ i, Instruction.ofWord word ≠ .ok i) ∧
        (m.step input).after = m.pastWord ∧
        (m.step input).fault = some (.unknownInstruction word)) ∨
      ∃ i, m.Executes i ∧ (m.step input).after = (m.pastWord.execute input i).after ∧
        (m.step input).fault = (m.pastWord.execute input i).fault := by
  by_cases h : 0xFFF ≤ m.pc.toNat
  · exact Or.inl ⟨h, step_of_fetch_error (fetch_of_le h) input⟩
  · obtain ⟨word, hf⟩ := fetch_of_lt (Nat.not_le.mp h)
    cases hw : Instruction.ofWord word with
    | error fault =>
      have hs := step_of_unknown hf hw input
      obtain rfl := Instruction.fault_ofWord hw
      exact Or.inr (Or.inl ⟨word, hf, by simp [hw], by rw [hs], by rw [hs]⟩)
    | ok i =>
      have hs := step_of_known hf hw input
      exact Or.inr (Or.inr ⟨i, ⟨word, hf, hw⟩, by rw [hs], by rw [hs]⟩)

def refusal? (m : Machine) (i : Instruction) : Option Fault :=
  match i with
  | .ret => if m.stack = [] then some .stackUnderflow else none
  | .call _ =>
    if m.stack.length < m.settings.stackLimit then none
    else some (.stackOverflow m.settings.stackLimit)
  | i =>
    match i.reach? with
    | some n =>
      if m.index.toNat + n ≤ 0x1000 then none else some (.memory (max m.index 0x1000))
    | none => none

theorem length_registersTo (m : Machine) (x : UInt8) :
    (m.registersTo x).length = x.toNat % 16 + 1 := by
  simp only [registersTo]
  rw [List.length_take, Vector.length_toList]
  omega

theorem fault_execute (m : Machine) (input : Input) (i : Instruction) :
    (m.execute input i).fault = m.refusal? i := by
  cases i with
  | ret =>
    simp only [execute, refusal?]
    split
    · rename_i h
      rw [if_pos h]
      rfl
    · rename_i h
      simp [h, Outcome.ok]
  | call target =>
    simp only [execute, refusal?]
    split <;> rfl
  | draw x y height =>
    simp only [execute, refusal?, Instruction.reach?, Memory.slice]
    split <;> rename_i h <;> split at h
    · cases h
    · cases h
      rw [if_neg ‹_›]
      rfl
    · rw [if_pos ‹_›]
      rfl
    · cases h
  | storeDigits x =>
    have hs := m.memory.fault_store_zero m.index (decimalDigits (m.register x))
    exact hs.trans (Memory.overrun?_of_pos m.index (Nat.succ_pos 2))
  | storeRegisters x =>
    have hs := m.memory.fault_store_zero m.index (m.registersTo x)
    rw [length_registersTo] at hs
    exact hs.trans (Memory.overrun?_of_pos m.index (Nat.succ_pos _))
  | loadRegisters x =>
    have hs := m.memory.fault_gather_zero m.index (x.toNat % 16 + 1)
    exact hs.trans (Memory.overrun?_of_pos m.index (Nat.succ_pos _))
  | awaitKey x =>
    simp only [execute, refusal?, Instruction.reach?]
    split <;> rfl
  | _ => rfl

theorem refusal?_of_reach? (m : Machine) {i : Instruction} {n : Nat} (h : i.reach? = some n) :
    m.refusal? i =
      if m.index.toNat + n ≤ 0x1000 then none else some (.memory (max m.index 0x1000)) := by
  cases i <;> cases h <;> rfl

theorem refusal?_eq_some_iff {m : Machine} {i : Instruction} {fault : Fault} :
    m.refusal? i = some fault ↔
      (i = .ret ∧ m.stack = [] ∧ fault = .stackUnderflow) ∨
      ((∃ target, i = .call target) ∧ m.settings.stackLimit ≤ m.stack.length ∧
        fault = .stackOverflow m.settings.stackLimit) ∨
      ∃ n, i.reach? = some n ∧ 0x1000 < m.index.toNat + n ∧
        fault = .memory (max m.index 0x1000) := by
  cases hr : i.reach? with
  | some n =>
    have no_ret : i ≠ .ret := by rintro rfl; cases hr
    have no_call : ∀ target, i ≠ .call target := by rintro target rfl; cases hr
    rw [m.refusal?_of_reach? hr]
    by_cases hn : m.index.toNat + n ≤ 0x1000
    · simp [no_ret, no_call, hn, Nat.not_lt.mpr hn]
    · simp [no_ret, no_call, hn, Nat.not_le.mp hn, eq_comm]
  | none =>
    cases i with
    | ret => by_cases hs : m.stack = [] <;> simp [refusal?, hs, eq_comm]
    | call target =>
      by_cases hs : m.stack.length < m.settings.stackLimit
      · simp [refusal?, hs, Nat.not_le.mpr hs]
      · simp [refusal?, hs, Nat.not_lt.mp hs, eq_comm]
    | _ => simp [refusal?, hr]

theorem fault_step_iff {m : Machine} {input : Input} {fault : Fault} :
    (m.step input).fault = some fault ↔
      (0xFFF ≤ m.pc.toNat ∧ fault = .memory (max m.pc 0x1000)) ∨
      (∃ word, m.fetch = .ok word ∧ (∀ i, Instruction.ofWord word ≠ .ok i) ∧
        fault = .unknownInstruction word) ∨
      (m.Executes .ret ∧ m.stack = [] ∧ fault = .stackUnderflow) ∨
      ((∃ target, m.Executes (.call target)) ∧ m.settings.stackLimit ≤ m.stack.length ∧
        fault = .stackOverflow m.settings.stackLimit) ∨
      ∃ i n, m.Executes i ∧ i.reach? = some n ∧ 0x1000 < m.index.toNat + n ∧
        fault = .memory (max m.index 0x1000) := by
  rcases m.step_cases input with ⟨hl, hs⟩ | ⟨word, hf, hu, -, hs⟩ | ⟨i, hi, -, hs⟩
  · have none : ∀ i, ¬m.Executes i := fun i hi => absurd hi.lt (Nat.not_lt.mpr hl)
    have nothing : ∀ word, m.fetch ≠ .ok word := fun word hf =>
      absurd (lt_of_fetch hf) (Nat.not_lt.mpr hl)
    rw [hs]
    simp [none, nothing, hl, eq_comm]
  · have none : ∀ i, ¬m.Executes i := fun i hi => hu i (hi.ofWord hf)
    have hl := Nat.not_le.mpr (lt_of_fetch hf)
    rw [hs]
    simp only [none, hl, false_and, exists_false, false_or, or_false]
    constructor
    · intro h
      exact ⟨word, hf, hu, (Option.some.inj h).symm⟩
    · rintro ⟨other, hf', -, rfl⟩
      rw [hf] at hf'
      cases hf'
      rfl
  · have known : ¬∃ word, m.fetch = .ok word ∧ (∀ i, Instruction.ofWord word ≠ .ok i) ∧
        fault = .unknownInstruction word := by
      rintro ⟨word, hf, hu, -⟩
      exact hu i (hi.ofWord hf)
    have hl := Nat.not_le.mpr hi.lt
    rw [hs, fault_execute, refusal?_eq_some_iff]
    simp only [known, hl, false_and, false_or]
    constructor
    · rintro (⟨rfl, h⟩ | ⟨⟨target, rfl⟩, h⟩ | ⟨n, h⟩)
      · exact Or.inl ⟨hi, h⟩
      · exact Or.inr (Or.inl ⟨⟨target, hi⟩, h⟩)
      · exact Or.inr (Or.inr ⟨i, n, hi, h⟩)
    · rintro (⟨hj, h⟩ | ⟨⟨target, hj⟩, h⟩ | ⟨j, n, hj, h⟩)
      · exact Or.inl ⟨hi.unique hj, h⟩
      · exact Or.inr (Or.inl ⟨⟨target, hi.unique hj⟩, h⟩)
      · obtain rfl := hi.unique hj
        exact Or.inr (Or.inr ⟨n, h⟩)

/-- Only a transfer to memory or to registers can fail after it has begun. -/
theorem after_of_refused {m : Machine} {input : Input} {i : Instruction} {fault : Fault}
    (h : (m.execute input i).fault = some fault) :
    (∃ x, i = .storeDigits x ∨ i = .storeRegisters x ∨ i = .loadRegisters x) ∨
      (m.execute input i).after = m := by
  cases i with
  | storeDigits x => exact Or.inl ⟨x, Or.inl rfl⟩
  | storeRegisters x => exact Or.inl ⟨x, Or.inr (Or.inl rfl)⟩
  | loadRegisters x => exact Or.inl ⟨x, Or.inr (Or.inr rfl)⟩
  | ret =>
    right
    simp only [execute] at h ⊢
    cases hs : m.stack with
    | nil => rfl
    | cons address rest => simp [hs, Outcome.ok] at h
  | call target =>
    right
    simp only [execute] at h ⊢
    by_cases hs : m.stack.length < m.settings.stackLimit
    · simp [hs, Outcome.ok] at h
    · rw [if_neg hs]
      rfl
  | draw x y height =>
    right
    simp only [execute] at h ⊢
    cases hs : m.memory.slice m.index height.toNat with
    | error fault => rfl
    | ok bytes => simp [hs, Outcome.ok] at h
  | awaitKey x =>
    simp only [execute] at h
    split at h <;> cases h
  | _ => cases h

structure Refused (m after : Machine) (i : Instruction) : Prop where
  others : after = { m with memory := after.memory, registers := after.registers }
  written : ∀ a (h : a < 0x1000), after.memory.bytes[a] ≠ m.memory.bytes[a] →
    m.index.toNat ≤ a ∧ ∃ x, i = .storeDigits x ∨ i = .storeRegisters x
  filled : ∀ r : Fin 16, after.registers.get r ≠ m.registers.get r →
    ∃ x, i = .loadRegisters x ∧ r.val ≤ x.toNat

theorem get_setRegisters (m : Machine) (bytes : List UInt8) (r : Fin 16) :
    (m.setRegisters bytes).registers.get r = (bytes[r.val]?).getD (m.registers.get r) := by
  have hg : (m.setRegisters bytes).registers.get r =
      (m.setRegisters bytes).registers[r.val] := rfl
  rw [hg]
  simp only [setRegisters, Vector.getElem_ofFn]

/-- There are no more bytes than registers that they are read for. -/
theorem le_of_changed_setRegisters {m : Machine} {x : UInt8} {r : Fin 16}
    (h : (m.setRegisters (m.memory.gather m.index 0 (x.toNat % 16 + 1)).after).registers.get r ≠
      m.registers.get r) : r.val ≤ x.toNat := by
  apply Nat.le_of_not_lt
  intro hr
  apply h
  have hl := m.memory.length_gather_le m.index 0 (x.toNat % 16 + 1)
  have hn : (m.memory.gather m.index 0 (x.toNat % 16 + 1)).after[r.val]? = none :=
    List.getElem?_eq_none (by omega)
  rw [get_setRegisters, hn]
  rfl

theorem refused_execute {m : Machine} {input : Input} {i : Instruction} {fault : Fault}
    (h : (m.execute input i).fault = some fault) : Refused m (m.execute input i).after i := by
  rcases after_of_refused h with ⟨x, rfl | rfl | rfl⟩ | hs
  · constructor
    · rfl
    · intro a ha hc
      exact ⟨(Memory.range_of_store ha hc).1, x, Or.inl rfl⟩
    · intro r hc
      exact absurd rfl hc
  · constructor
    · rfl
    · intro a ha hc
      exact ⟨(Memory.range_of_store ha hc).1, x, Or.inr rfl⟩
    · intro r hc
      exact absurd rfl hc
  · refine ⟨rfl, fun _ _ hc => absurd rfl hc, ?_⟩
    intro r hc
    exact ⟨x, rfl, le_of_changed_setRegisters hc⟩
  · rw [hs]
    exact ⟨rfl, fun _ _ hc => absurd rfl hc, fun _ hc => absurd rfl hc⟩

end Machine

end Chip8
