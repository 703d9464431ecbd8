import Chip8.Proofs.Course
import Chip8.Proofs.Frame

/-! Transfers of several bytes between registers and memory, wherever the index points. They go byte
by byte upwards, as far as memory goes, and what they have done until then stays done. A store of
registers and a load of no more of them are inverse to each other over any run between them that
writes to none of the addresses. -/

namespace Chip8

namespace Memory

def inside (base : UInt16) (count : Nat) : Nat := min count (0x1000 - base.toNat)

theorem inside_eq_iff (base : UInt16) (count : Nat) :
    inside base count = count ↔ count = 0 ∨ base.toNat + count ≤ 0x1000 := by
  simp only [inside]
  omega

theorem overrun?_eq (base : UInt16) (count : Nat) :
    overrun? base count =
      if inside base count = count then none else some (.memory (max base 0x1000)) := by
  simp only [overrun?, inside_eq_iff]

section

variable {base : UInt16} {count d : Nat}

theorem lt_inside_iff : d < inside base count ↔ d < count ∧ base.toNat + d < 0x1000 := by
  simp only [inside]
  omega

theorem toNat_ofNat_inside (h : d < inside base count) : (UInt16.ofNat d).toNat = d := by
  obtain ⟨-, found⟩ := lt_inside_iff.mp h
  rw [UInt16.toNat_ofNat']
  omega

theorem toNat_add_inside (h : d < inside base count) :
    (base + .ofNat d).toNat = base.toNat + d := by
  obtain ⟨-, found⟩ := lt_inside_iff.mp h
  rw [UInt16.toNat_add, toNat_ofNat_inside h]
  omega

end

theorem getElem_store_zero (m : Memory) (base : UInt16) (bytes : List UInt8) (a : Nat)
    (ha : a < 0x1000) :
    (m.store base 0 bytes).after.bytes[a] =
      if h : base.toNat ≤ a ∧ a - base.toNat < bytes.length then bytes[a - base.toNat]
      else m.bytes[a] := by
  have small : base.toNat + (0 : UInt16).toNat < 0x10000 := base.toNat_lt
  have written := m.getElem_store bytes small a ha
  have listed : base.toNat ≤ a ∧ a < base.toNat + bytes.length ↔
      base.toNat ≤ a ∧ a - base.toNat < bytes.length := by omega
  simpa only [UInt16.toNat_zero, Nat.add_zero, listed] using written

theorem getElem_store_inside (m : Memory) (base : UInt16) (bytes : List UInt8) {d : Nat}
    (h : d < inside base bytes.length) :
    ∃ (_ : d < bytes.length) (_ : base.toNat + d < 0x1000),
      (m.store base 0 bytes).after.bytes[base.toNat + d] = bytes[d] := by
  obtain ⟨listed, found⟩ := lt_inside_iff.mp h
  refine ⟨listed, found, ?_⟩
  rw [getElem_store_zero, dif_pos (by omega)]
  simp only [Nat.add_sub_cancel_left]

theorem getElem_store_outside (m : Memory) (base : UInt16) (bytes : List UInt8) {a : Nat}
    (ha : a < 0x1000) (h : a < base.toNat ∨ base.toNat + inside base bytes.length ≤ a) :
    (m.store base 0 bytes).after.bytes[a] = m.bytes[a] := by
  rw [getElem_store_zero, dif_neg]
  simp only [inside] at h
  omega

theorem write_store_take (m : Memory) (base : UInt16) (bytes : List UInt8) {d : Nat}
    (hd : d < bytes.length) (h : d < inside base bytes.length) :
    (m.store base 0 (bytes.take d)).after.write (base + .ofNat d) bytes[d] =
      .ok (m.store base 0 (bytes.take (d + 1))).after := by
  have length : (bytes.take d).length = d := List.length_take_of_le (Nat.le_of_lt hd)
  obtain ⟨-, room⟩ := lt_inside_iff.mp h
  have passed : (m.store base 0 (bytes.take d)).fault = none := by
    rw [fault_store_zero, length, overrun?_eq]
    apply if_pos
    rw [inside_eq_iff]
    omega
  have sum : base.toNat + (UInt16.ofNat d).toNat < 0x10000 := by
    rw [toNat_ofNat_inside h]
    omega
  have found : (base + .ofNat d).toNat < 0x1000 := by
    rwa [toNat_add_inside h]
  have next := m.store_append base 0 (bytes.take d) [bytes[d]] passed
  rw [length, UInt16.zero_add, store_cons_of_lt _ _ _ sum found, List.take_append_getElem] at next
  rw [next, write_of_lt _ _ found]
  rfl

theorem store_take_inside (m : Memory) (base : UInt16) (bytes : List UInt8) :
    (m.store base 0 (bytes.take (inside base bytes.length))).after =
      (m.store base 0 bytes).after := by
  have same : (m.store base 0 (bytes.take (inside base bytes.length))).after.bytes =
      (m.store base 0 bytes).after.bytes := by
    ext a ha
    simp only [getElem_store_zero, List.length_take, List.getElem_take]
    have listed : base.toNat ≤ a ∧ a - base.toNat < min (inside base bytes.length) bytes.length ↔
        base.toNat ≤ a ∧ a - base.toNat < bytes.length := by
      simp only [inside]
      omega
    simp only [listed]
  exact congrArg Memory.mk same

theorem getElem?_gather_zero (m : Memory) (base : UInt16) (count d : Nat) :
    (m.gather base 0 count).after[d]? =
      if h : d < count ∧ base.toNat + d < 0x1000 then some m.bytes[base.toNat + d] else none := by
  have small : base.toNat + (0 : UInt16).toNat < 0x10000 := base.toNat_lt
  have read := m.getElem?_gather count small d
  simpa only [UInt16.toNat_zero, Nat.add_zero] using read

theorem read_inside (m : Memory) {base : UInt16} {count d : Nat} (h : d < inside base count) :
    ∃ _ : base.toNat + d < 0x1000,
      m.read (base + .ofNat d) = .ok m.bytes[base.toNat + d] := by
  obtain ⟨-, found⟩ := lt_inside_iff.mp h
  have address := toNat_add_inside h
  refine ⟨found, ?_⟩
  rw [read_of_lt m (by rwa [address])]
  simp only [address]

end Memory

namespace Machine

/-- What a transfer of some bytes to memory comes to. Only those that lie in memory are written, one
behind the other, and nothing else changes. -/
structure Stored (m : Machine) (bytes : List UInt8) (outcome : Outcome Machine) : Prop where
  ascending : ∃ stage : Nat → Memory, stage 0 = m.memory ∧
    (∀ d (h : d < bytes.length), d < Memory.inside m.index bytes.length →
      (stage d).write (m.index + .ofNat d) bytes[d] = .ok (stage (d + 1))) ∧
    stage (Memory.inside m.index bytes.length) = outcome.after.memory
  written : ∀ d, d < Memory.inside m.index bytes.length →
    ∃ (_ : d < bytes.length) (_ : m.index.toNat + d < 0x1000),
      outcome.after.memory.bytes[m.index.toNat + d] = bytes[d]
  spared : ∀ a (_ : a < 0x1000),
    a < m.index.toNat ∨ m.index.toNat + Memory.inside m.index bytes.length ≤ a →
      outcome.after.memory.bytes[a] = m.memory.bytes[a]
  others : outcome.after = { m with pc := m.pc + 2, memory := outcome.after.memory }
  fault : outcome.fault =
    if Memory.inside m.index bytes.length = bytes.length then none
    else some (.memory (max m.index 0x1000))

structure Loaded (m : Machine) (count : Nat) (outcome : Outcome Machine) : Prop where
  ascending : ∃ stage : Nat → Vector UInt8 16, stage 0 = m.registers ∧
    (∀ d (_ : d < 16), d < Memory.inside m.index count → ∃ byte,
      m.memory.read (m.index + .ofNat d) = .ok byte ∧ stage (d + 1) = (stage d).set d byte) ∧
    stage (Memory.inside m.index count) = outcome.after.registers
  filled : ∀ r : Fin 16, r.val < Memory.inside m.index count →
    ∃ _ : m.index.toNat + r.val < 0x1000,
      outcome.after.registers.get r = m.memory.bytes[m.index.toNat + r.val]
  spared : ∀ r : Fin 16, Memory.inside m.index count ≤ r.val →
    outcome.after.registers.get r = m.registers.get r
  others : outcome.after = { m with pc := m.pc + 2, registers := outcome.after.registers }
  fault : outcome.fault =
    if Memory.inside m.index count = count then none else some (.memory (max m.index 0x1000))

variable {m : Machine} {input : Input}

theorem stored_of_store {bytes : List UInt8} {outcome : Outcome Machine}
    (after : outcome.after =
      { m.pastWord with memory := (m.memory.store m.index 0 bytes).after })
    (fault : outcome.fault = (m.memory.store m.index 0 bytes).fault) :
    Stored m bytes outcome := by
  have memory : outcome.after.memory = (m.memory.store m.index 0 bytes).after :=
    congrArg Machine.memory after
  constructor
  · refine ⟨fun d => (m.memory.store m.index 0 (bytes.take d)).after, rfl, ?_, ?_⟩
    · intro d listed h
      exact m.memory.write_store_take m.index bytes listed h
    · rw [memory]
      exact m.memory.store_take_inside m.index bytes
  · intro d h
    rw [memory]
    exact m.memory.getElem_store_inside m.index bytes h
  · intro a ha outside
    rw [memory]
    exact m.memory.getElem_store_outside m.index bytes ha outside
  · rw [memory]
    exact after
  · rw [fault, Memory.fault_store_zero, Memory.overrun?_eq]

theorem registers_setRegisters_nil (m : Machine) : (m.setRegisters []).registers = m.registers := by
  ext r hr
  simp only [setRegisters, Vector.getElem_ofFn]
  rfl

theorem setRegisters_take_succ (m : Machine) (bytes : List UInt8) {d : Nat} (hd : d < 16)
    (h : d < bytes.length) :
    (m.setRegisters (bytes.take (d + 1))).registers =
      (m.setRegisters (bytes.take d)).registers.set d bytes[d] := by
  ext r hr
  simp only [setRegisters, Vector.getElem_ofFn, Vector.getElem_set, List.getElem?_take]
  by_cases here : d = r
  · subst here
    simp [h]
  · have listed : r < d + 1 ↔ r < d := by omega
    simp only [here, listed, if_false]

theorem loaded_of_gather {count : Nat} {outcome : Outcome Machine}
    (after : outcome.after =
      m.pastWord.setRegisters (m.memory.gather m.index 0 count).after)
    (fault : outcome.fault = (m.memory.gather m.index 0 count).fault) :
    Loaded m count outcome := by
  have registers : outcome.after.registers =
      (m.setRegisters (m.memory.gather m.index 0 count).after).registers := by
    rw [after]
    rfl
  have filled (r : Fin 16) : outcome.after.registers.get r =
      ((m.memory.gather m.index 0 count).after[r.val]?).getD (m.registers.get r) := by
    rw [registers]
    exact m.get_setRegisters _ r
  constructor
  · refine ⟨fun d => (m.setRegisters ((m.memory.gather m.index 0 count).after.take d)).registers,
      m.registers_setRegisters_nil, ?_, ?_⟩
    · intro d hd h
      have read := m.memory.getElem?_gather_zero m.index count d
      rw [dif_pos (Memory.lt_inside_iff.mp h), List.getElem?_eq_some_iff] at read
      obtain ⟨listed, same⟩ := read
      obtain ⟨_, next⟩ := m.memory.read_inside h
      refine ⟨_, next, ?_⟩
      rw [← same]
      exact m.setRegisters_take_succ _ hd listed
    · have past := m.memory.getElem?_gather_zero m.index count (Memory.inside m.index count)
      rw [dif_neg (Nat.lt_irrefl _ ∘ Memory.lt_inside_iff.mpr), List.getElem?_eq_none_iff] at past
      simp only [registers, List.take_of_length_le past]
  · intro r h
    obtain ⟨listed, found⟩ := Memory.lt_inside_iff.mp h
    refine ⟨found, ?_⟩
    rw [filled, Memory.getElem?_gather_zero, dif_pos ⟨listed, found⟩]
    rfl
  · intro r h
    rw [filled, Memory.getElem?_gather_zero,
      dif_neg (Nat.not_lt.mpr h ∘ Memory.lt_inside_iff.mpr)]
    rfl
  · rw [registers]
    exact after
  · rw [fault, Memory.fault_gather_zero, Memory.overrun?_eq]

theorem registersTo_eq {x : UInt8} (h : x.toNat < 16) :
    m.registersTo x = m.registers.toList.take (x.toNat + 1) := by
  rw [registersTo, Nat.mod_eq_of_lt h]

theorem length_take_registers {x : UInt8} (h : x.toNat < 16) :
    (m.registers.toList.take (x.toNat + 1)).length = x.toNat + 1 := by
  rw [← registersTo_eq h, length_registersTo, Nat.mod_eq_of_lt h]

theorem decimalDigits_eq (value : UInt8) :
    ∃ h t u : UInt8, decimalDigits value = [h, t, u] ∧ h ≤ 9 ∧ t ≤ 9 ∧ u ≤ 9 ∧
      100 * h.toNat + 10 * t.toNat + u.toNat = value.toNat := by
  have small := value.toNat_lt
  refine ⟨_, _, _, rfl, ?_, ?_, ?_, ?_⟩
  · rw [UInt8.le_iff_toNat_le, UInt8.toNat_div]
    simp only [UInt8.reduceToNat]
    omega
  · rw [UInt8.le_iff_toNat_le, UInt8.toNat_mod]
    simp only [UInt8.reduceToNat]
    omega
  · rw [UInt8.le_iff_toNat_le, UInt8.toNat_mod]
    simp only [UInt8.reduceToNat]
    omega
  · simp only [UInt8.toNat_div, UInt8.toNat_mod, UInt8.reduceToNat]
    omega

theorem stored_step_of_storeDigits {x : UInt8} (h : m.Executes (.storeDigits x)) (input : Input) :
    Stored m (decimalDigits (m.register x)) (m.step input) := by
  obtain ⟨after, fault⟩ := step_of_executes h input
  exact stored_of_store after fault

theorem stored_step_of_storeRegisters {x : UInt8} (h : m.Executes (.storeRegisters x))
    (input : Input) : Stored m (m.registers.toList.take (x.toNat + 1)) (m.step input) := by
  obtain ⟨after, fault⟩ := step_of_executes h input
  rw [← registersTo_eq (lt_of_mem_operands h x (.head _))]
  exact stored_of_store after fault

theorem loaded_step_of_loadRegisters {x : UInt8} (h : m.Executes (.loadRegisters x))
    (input : Input) : Loaded m (x.toNat + 1) (m.step input) := by
  obtain ⟨after, fault⟩ := step_of_executes h input
  rw [← Nat.mod_eq_of_lt (lt_of_mem_operands h x (.head _))]
  exact loaded_of_gather after fault

theorem transfers_as_far_as_memory (m : Machine) (input : Input) (x : UInt8) :
    (m.Executes (.storeDigits x) → ∃ h t u : UInt8, h ≤ 9 ∧ t ≤ 9 ∧ u ≤ 9 ∧
      100 * h.toNat + 10 * t.toNat + u.toNat = (m.register x).toNat ∧
      Stored m [h, t, u] (m.step input)) ∧
    (m.Executes (.storeRegisters x) →
      (m.registers.toList.take (x.toNat + 1)).length = x.toNat + 1 ∧
      Stored m (m.registers.toList.take (x.toNat + 1)) (m.step input)) ∧
    (m.Executes (.loadRegisters x) → Loaded m (x.toNat + 1) (m.step input)) := by
  refine ⟨?_, ?_, ?_⟩
  · intro h
    obtain ⟨hundreds, tens, units, digits, hh, ht, hu, sum⟩ := decimalDigits_eq (m.register x)
    exact ⟨hundreds, tens, units, hh, ht, hu, sum, digits ▸ stored_step_of_storeDigits h input⟩
  · intro h
    have hx : x.toNat < 16 := lt_of_mem_operands h x (.head _)
    exact ⟨length_take_registers hx, stored_step_of_storeRegisters h input⟩
  · intro h
    exact loaded_step_of_loadRegisters h input

/-- Two bytes are left in memory for three digits, three registers and four registers in turn. -/
theorem transfers_as_far_as_memory_two_bytes :
    let rom : Rom := ⟨#[0xF0, 0x33, 0xF2, 0x55, 0xF3, 0x65]⟩
    let m : Machine := { (boot rom {} (.replicate 8 0)).after with
      index := 0xFFE, registers := .replicate 16 156 }
    let n := (m.step .silent).after
    let k := (n.step .silent).after
    (∃ h t u : UInt8, 100 * h.toNat + 10 * t.toNat + u.toNat = 156 ∧
      Stored m [h, t, u] (m.step .silent)) ∧
    Stored n (n.registers.toList.take 3) (n.step .silent) ∧ Loaded k 4 (k.step .silent) ∧
    n.memory.bytes[0xFFE]? = some 1 ∧ n.memory.bytes[0xFFF]? = some 5 ∧
    (k.step .silent).fault = some (.memory 0x1000) := by
  intro rom m n k
  have digits : m.Executes (.storeDigits 0) := next?_eq_some_iff.mp (by decide +kernel)
  have registers : n.Executes (.storeRegisters 2) := next?_eq_some_iff.mp (by decide +kernel)
  have back : k.Executes (.loadRegisters 3) := next?_eq_some_iff.mp (by decide +kernel)
  obtain ⟨hundreds, tens, units, -, -, -, sum, stored⟩ :=
    (transfers_as_far_as_memory m .silent 0).1 digits
  have saved := (transfers_as_far_as_memory n .silent 2).2.1 registers
  have loaded := (transfers_as_far_as_memory k .silent 3).2.2 back
  refine ⟨⟨hundreds, tens, units, sum, stored⟩, saved.2, loaded, ?_⟩
  decide +kernel

end Machine

def Instruction.written : Instruction → Nat
  | .storeDigits _ => 3
  | .storeRegisters x => x.toNat + 1
  | _ => 0

namespace Machine

variable {m n : Machine} {input : Input}

/-- The next cycle writes to the address, be it what is there already. A cycle that is refused for
the bytes past the end of memory writes those before it. -/
def Writes (m : Machine) (a : Nat) : Prop :=
  ∃ i, m.Executes i ∧ m.index.toNat ≤ a ∧ a < m.index.toNat + i.written

instance (m : Machine) (a : Nat) : Decidable (m.Writes a) :=
  decidable_of_iff
    (m.next?.any fun i => m.index.toNat ≤ a ∧ a < m.index.toNat + i.written)
    (by simp [Writes, Option.any_eq_true, next?_eq_some_iff])

theorem writes_of_changed {a : Nat} (ha : a < 0x1000)
    (changed : (m.step input).after.memory.bytes[a] ≠ m.memory.bytes[a]) : m.Writes a := by
  obtain ⟨first, x, ⟨hi, last⟩ | ⟨hi, last⟩⟩ := written_of_changed_step ha changed
  · exact ⟨_, hi, first, Nat.lt_succ_of_le last⟩
  · exact ⟨_, hi, first, Nat.lt_succ_of_le last⟩

theorem memory_perform_of_unwritten {a : Nat} (ha : a < 0x1000) (input : Input) {task : Task}
    (unwritten : task = .cycle → ¬m.Writes a) :
    (m.perform input task).after.memory.bytes[a] = m.memory.bytes[a] := by
  cases task with
  | tick => rfl
  | cycle =>
    apply Classical.byContradiction
    intro changed
    exact unwritten rfl (writes_of_changed ha changed)

/-- What no cycle of a run writes to is at its end what it was. -/
theorem memory_follow_of_unwritten {a : Nat} (ha : a < 0x1000) {tasks : List Task}
    (unwritten : ∀ before, before ++ [.cycle] <+: tasks → ¬(m.follow input before).Writes a) :
    (m.follow input tasks).memory.bytes[a] = m.memory.bytes[a] := by
  refine prefix_induction tasks rfl ?_
  intro before task listed same
  have now : ((m.follow input before).perform input task).after.memory.bytes[a] =
      (m.follow input before).memory.bytes[a] := by
    apply memory_perform_of_unwritten ha
    rintro rfl
    exact unwritten before listed
  simp only [follow_concat, now, same]

theorem step_of_storeRegisters {x : UInt8} (save : m.Executes (.storeRegisters x))
    (fits : m.index.toNat + x.toNat ≤ 0xFFF) (input : Input) :
    (m.step input).fault = none ∧ ∀ r : Fin 16, r.val ≤ x.toNat →
      ∃ h : m.index.toNat + r.val < 0x1000,
        (m.step input).after.memory.bytes[m.index.toNat + r.val] = m.registers.get r := by
  have hx : x.toNat < 16 := lt_of_mem_operands save x (.head _)
  have length := m.length_take_registers hx
  have stored := stored_step_of_storeRegisters save input
  have whole : Memory.inside m.index (x.toNat + 1) = x.toNat + 1 :=
    (Memory.inside_eq_iff _ _).mpr (Or.inr (by omega))
  constructor
  · rw [stored.fault, length, if_pos whole]
  · intro r hr
    obtain ⟨listed, found, written⟩ := stored.written r.val (by rw [length, whole]; omega)
    refine ⟨found, written.trans ?_⟩
    simp only [List.getElem_take, Vector.getElem_toList]
    rfl

theorem step_of_loadRegisters {y : UInt8} (load : n.Executes (.loadRegisters y))
    (fits : n.index.toNat + y.toNat ≤ 0xFFF) (input : Input) :
    (n.step input).fault = none ∧
      (∀ r : Fin 16, r.val ≤ y.toNat → ∃ h : n.index.toNat + r.val < 0x1000,
        (n.step input).after.registers.get r = n.memory.bytes[n.index.toNat + r.val]) ∧
      ∀ r : Fin 16, y.toNat < r.val →
        (n.step input).after.registers.get r = n.registers.get r := by
  have loaded := loaded_step_of_loadRegisters load input
  have whole : Memory.inside n.index (y.toNat + 1) = y.toNat + 1 :=
    (Memory.inside_eq_iff _ _).mpr (Or.inr (by omega))
  refine ⟨?_, ?_, ?_⟩
  · rw [loaded.fault, if_pos whole]
  · intro r hr
    exact loaded.filled r (by rw [whole]; omega)
  · intro r hr
    exact loaded.spared r (by rw [whole]; omega)

theorem saved_registers_restored {x y : UInt8} {tasks : List Task}
    (save : m.Executes (.storeRegisters x)) (fits : m.index.toNat + x.toNat ≤ 0xFFF)
    (unwritten : ∀ before, before ++ [.cycle] <+: tasks → ∀ a, m.index.toNat ≤ a →
      a ≤ m.index.toNat + x.toNat → ¬((m.step input).after.follow input before).Writes a)
    (between : n = (m.step input).after.follow input tasks) (index : n.index = m.index)
    (load : n.Executes (.loadRegisters y)) (covered : y ≤ x) :
    (m.step input).fault = none ∧ (n.step input).fault = none ∧
      (∀ r : Fin 16, r.val ≤ y.toNat →
        (n.step input).after.registers.get r = m.registers.get r) ∧
      (∀ r : Fin 16, y.toNat < r.val →
        (n.step input).after.registers.get r = n.registers.get r) ∧
      (n.step input).after.index = n.index ∧ (n.step input).after.memory = n.memory := by
  have hy : y.toNat ≤ x.toNat := UInt8.le_iff_toNat_le.mp covered
  obtain ⟨accepted, saved⟩ := step_of_storeRegisters save fits input
  obtain ⟨found, loaded, others⟩ := step_of_loadRegisters load (by rw [index]; omega) input
  have untouched (part : Part) (h : part ≠ .registers) : part.Same n (n.step input).after := by
    apply n.same_step input part
    intro i hi
    rw [hi.unique load]
    simpa [Instruction.footprint] using h
  refine ⟨accepted, found, ?_, others, ?_, ?_⟩
  · intro r hr
    obtain ⟨inside, read⟩ := loaded r hr
    obtain ⟨_, written⟩ := saved r (by omega)
    have kept : ((m.step input).after.follow input tasks).memory.bytes[m.index.toNat + r.val] =
        (m.step input).after.memory.bytes[m.index.toNat + r.val] := by
      apply memory_follow_of_unwritten
      intro before listed
      exact unwritten before listed _ (by omega) (by omega)
    simp only [index] at read
    rw [read, ← written, ← kept]
    subst between
    rfl
  · exact untouched .index (by decide)
  · exact untouched .memory (by decide)

/-- Three registers are saved. Before two of them are loaded again, the first one gets another
value, and its digits go to memory right behind them. -/
def saving : Machine :=
  (boot ⟨#[0x60, 0x07, 0x61, 0x08, 0x62, 0x09, 0x63, 0x03, 0xA3, 0x00, 0xF2, 0x55, 0x60, 0xFF,
      0xF3, 0x1E, 0xF0, 0x33, 0x61, 0x00, 0xA3, 0x00, 0xF1, 0x65]⟩
    { seed := some 1 } (.replicate 8 0)).after.follow .silent (.replicate 5 .cycle)

theorem saved_registers_restored_digits_behind :
    let tasks : List Task := [.cycle, .tick, .cycle, .cycle, .cycle, .cycle]
    let n := (saving.step .silent).after.follow .silent tasks
    saving.Executes (.storeRegisters 2) ∧ n.Executes (.loadRegisters 1) ∧
      n.registers.get 0 = 255 ∧ n.memory.bytes[0x303] = 2 ∧
      (n.step .silent).fault = none ∧
      (n.step .silent).after.registers.get 0 = saving.registers.get 0 ∧
      (n.step .silent).after.registers.get 1 = saving.registers.get 1 := by
  intro tasks n
  have changed : n.registers.get 0 = 255 ∧ n.memory.bytes[0x303] = 2 := by decide +kernel
  have save : saving.Executes (.storeRegisters 2) := next?_eq_some_iff.mp (by decide +kernel)
  have load : n.Executes (.loadRegisters 1) := next?_eq_some_iff.mp (by decide +kernel)
  have index : saving.index.toNat = 0x300 := by decide +kernel
  have spared : ∀ k ≤ 6, ∀ d ≤ 2,
      ¬((saving.step .silent).after.follow .silent (tasks.take k)).Writes (0x300 + d) := by
    decide +kernel
  have unwritten : ∀ before, before ++ [.cycle] <+: tasks → ∀ a, saving.index.toNat ≤ a →
      a ≤ saving.index.toNat + (2 : UInt8).toNat →
      ¬((saving.step .silent).after.follow .silent before).Writes a := by
    intro before listed a first last
    have earlier := (List.prefix_append before [.cycle]).trans listed
    rw [index] at first last
    obtain ⟨d, rfl⟩ := Nat.exists_eq_add_of_le first
    rw [List.prefix_iff_eq_take.mp earlier]
    exact spared before.length earlier.length_le d (Nat.le_of_add_le_add_left last)
  have fits : saving.index.toNat + (2 : UInt8).toNat ≤ 0xFFF := by rw [index]; decide
  have again : n.index = saving.index := by decide +kernel
  have between : n = (saving.step .silent).after.follow .silent tasks := rfl
  obtain ⟨-, found, loaded, -⟩ :=
    saved_registers_restored save fits unwritten between again load (by decide)
  have zeroth := loaded 0 (Nat.zero_le _)
  have first := loaded 1 (Nat.le_refl _)
  exact ⟨save, load, changed.1, changed.2, found, zeroth, first⟩

end Machine

end Chip8
