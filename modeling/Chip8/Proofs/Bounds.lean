import Chip8.Proofs.Frame
import Chip8.Proofs.Reachable
import Chip8.Screen.Lemmas

/-! Bounds that hold whatever a program does to itself, and however a host goes on after a fault. A
program counter may leave memory, but never by so much that a sum with it goes around. -/

namespace Chip8.Machine

variable {m : Machine} {input : Input} {i : Instruction}

/-- The largest program counter is that of `BFFF` with 255 in the first register; a call pushes an
address behind a word that was in memory. -/
structure Bounded (m : Machine) : Prop where
  pc : m.pc.toNat ≤ 0x10FE
  entries : ∀ entry ∈ m.stack, 2 ≤ entry.toNat ∧ entry.toNat ≤ 0x1000

theorem successor_le (h : m.Executes i) (hm : m.Bounded) (input : Input) (fault : Option Fault) :
    m.successor input fault i ≤ 0x10FE := by
  have hl := h.lt
  obtain ⟨word, -, decoded⟩ := h
  cases i with
  | jump target =>
    have ht : target.toNat < 0x1000 := Instruction.toNat_lt_of_address? decoded rfl
    simp only [successor]
    omega
  | call target =>
    have ht : target.toNat < 0x1000 := Instruction.toNat_lt_of_address? decoded rfl
    simp only [successor]
    split <;> omega
  | ret =>
    simp only [successor]
    split
    · rename_i address rest eq
      have he := hm.entries address (by rw [eq]; exact .head rest)
      omega
    · omega
  | jumpOffset base =>
    have hb : base.toNat < 0x1000 := Instruction.toNat_lt_of_address? decoded rfl
    have hv := (m.register 0).toNat_lt
    simp only [successor]
    omega
  | _ =>
    simp only [successor]
    split <;> omega

theorem Bounded.step (h : m.Bounded) (input : Input) : (m.step input).after.Bounded := by
  constructor
  · rcases m.step_cases input with ⟨-, hs⟩ | ⟨word, hf, unknown, -⟩ | ⟨i, hi, -⟩
    · rw [hs]
      exact h.pc
    · have hl := lt_of_fetch hf
      rw [pc_step_of_unknown hf unknown input]
      omega
    · rw [pc_step hi input]
      exact successor_le hi h input _
  · intro entry he
    rcases m.stack_step input with same | ⟨target, hi, pushed⟩ | ⟨-, popped⟩
    · rw [same] at he
      exact h.entries entry he
    · rw [pushed] at he
      rcases List.mem_cons.mp he with rfl | he
      · have hl := hi.lt
        rw [toNat_pc_pastWord hl]
        omega
      · exact h.entries entry he
    · apply h.entries
      rw [popped]
      exact .tail _ he

theorem bounded_blank (settings : Settings) (entropy : ChaCha.Key) :
    (blank settings entropy).Bounded := by
  constructor
  · change Rom.start.toNat ≤ 0x10FE
    decide
  · intro entry he
    cases he

theorem Bounded.obey (h : m.Bounded) (input : Input) (command : Command) :
    (m.obey input command).after.Bounded := by
  cases command with
  | step => exact h.step input
  | tick => exact ⟨h.pc, h.entries⟩
  | reset rom entropy =>
    simp only [Machine.obey, reset]
    split
    · have hb := bounded_blank m.settings entropy
      exact ⟨hb.pc, hb.entries⟩
    · exact h

theorem Reachable.bounded {settings : Settings} (h : Reachable settings m) : m.Bounded := by
  induction h with
  | blank entropy => exact bounded_blank settings entropy
  | boot rom entropy =>
    have hb := bounded_blank settings entropy
    simp only [Machine.boot]
    split
    · exact ⟨hb.pc, hb.entries⟩
    · exact hb
  | obey input command _ ih => exact ih.obey input command

/-- The sums and the difference that a cycle forms of sixteen bits are those of the numbers. -/
structure Unwrapped (m : Machine) (input : Input) : Prop where
  passed : ∀ word, m.fetch = .ok word → m.pastWord.pc.toNat = m.pc.toNat + 2
  skipped : ∀ word, m.fetch = .ok word → (m.pastWord.pc + 2).toNat = m.pc.toNat + 4
  rewound : ∀ word, m.fetch = .ok word → 2 ≤ m.pastWord.pc.toNat ∧ m.pastWord.pc - 2 = m.pc
  awaited : ∀ x, m.Executes (.awaitKey x) → m.held input = [] → (m.step input).after.pc = m.pc
  offset : ∀ base, m.Executes (.jumpOffset base) →
    base.toNat + (m.register 0).toNat < 0x10000
  led : ∀ i, m.Executes i →
    (m.step input).after.pc.toNat = m.successor input (m.step input).fault i

theorem unwrapped (m : Machine) (input : Input) : m.Unwrapped input := by
  constructor
  · intro word hf
    exact toNat_pc_pastWord (lt_of_fetch hf)
  · intro word hf
    have hl := lt_of_fetch hf
    have hp := toNat_pc_pastWord hl
    simp only [UInt16.toNat_add, hp, UInt16.reduceToNat]
    omega
  · intro word hf
    have hp := toNat_pc_pastWord (lt_of_fetch hf)
    exact ⟨by omega, UInt16.add_sub_cancel m.pc 2⟩
  · intro x hi none
    apply UInt16.toNat_inj.mp
    rw [pc_step hi input]
    simp only [successor, none, if_true]
  · intro base hi
    obtain ⟨word, -, decoded⟩ := hi
    have hb : base.toNat < 0x1000 := Instruction.toNat_lt_of_address? decoded rfl
    have hv := (m.register 0).toNat_lt
    omega
  · intro i hi
    exact pc_step hi input

/-- The numbers by which a cycle looks into registers, memory and screen are those of entries there
are, and so are those that a reset puts a program to. A register is named by a number below sixteen
to begin with. -/
structure InRange (m : Machine) (input : Input) : Prop where
  named : ∀ i, m.Executes i → ∀ r ∈ i.operands, ∃ h : r.toNat < 16,
    m.register r = m.registers.get ⟨r.toNat, h⟩ ∧
      ∀ value, (m.setRegister r value).registers = m.registers.set r.toNat value
  fetched : ∀ word, m.fetch = .ok word → ∃ h : m.pc.toNat + 1 < 0x1000,
    word = m.memory.bytes[m.pc.toNat].toUInt16 <<< 8 |||
      m.memory.bytes[m.pc.toNat + 1].toUInt16
  reached : ∀ i n, m.Executes i → i.reach? = some n → (m.step input).fault = none →
    m.index.toNat + n ≤ 0x1000
  sliced : ∀ x y height bytes, m.Executes (.draw x y height) →
    m.memory.slice m.index height.toNat = .ok bytes →
    bytes.length = height.toNat ∧ ∀ d (hd : d < bytes.length),
      ∃ h : m.index.toNat + d < 0x1000, bytes[d] = m.memory.bytes[m.index.toNat + d]
  written : ∀ a (h : a < 0x1000),
    (m.step input).after.memory.bytes[a] ≠ m.memory.bytes[a] →
    ∃ i n d, m.Executes i ∧ i.reach? = some n ∧ d < n ∧ a = m.index.toNat + d
  loaded : ∀ x (r : Fin 16), m.Executes (.loadRegisters x) →
    (m.step input).after.registers.get r ≠ m.registers.get r →
    ∃ h : m.index.toNat + r.val < 0x1000,
      (m.step input).after.registers.get r = m.memory.bytes[m.index.toNat + r.val]
  drawn : ∀ row column,
    (m.step input).after.screen.pixel row column ≠ m.screen.pixel row column →
    m.Executes .clear ∨ ∃ x y height d b, m.Executes (.draw x y height) ∧
      d < height.toNat ∧ b < 8 ∧ row.val = (m.register y).toNat % 32 + d ∧
      column.val = (m.register x).toNat % 64 + b
  placed : ∀ rom entropy, (m.reset rom entropy).fault = none →
    Rom.start.toNat + rom.size ≤ 0x1000

theorem named_of_executes (h : m.Executes i) {r : UInt8} (hr : r ∈ i.operands) :
    ∃ h : r.toNat < 16, m.register r = m.registers.get ⟨r.toNat, h⟩ ∧
      ∀ value, (m.setRegister r value).registers = m.registers.set r.toNat value := by
  have hl := lt_of_mem_operands h r hr
  refine ⟨hl, ?_, ?_⟩
  · simp only [register, Nat.mod_eq_of_lt hl]
    rfl
  · intro value
    simp only [setRegister, Nat.mod_eq_of_lt hl]

theorem reach_of_accepted {n : Nat} (h : m.Executes i) (hn : i.reach? = some n)
    (accepted : (m.step input).fault = none) : m.index.toNat + n ≤ 0x1000 := by
  rw [(step_of_executes h input).2, fault_execute, refusal?_of_reach? _ hn] at accepted
  split at accepted
  · assumption
  · cases accepted

theorem loaded_of_changed {x : UInt8} {r : Fin 16} (h : m.Executes (.loadRegisters x))
    (changed : (m.step input).after.registers.get r ≠ m.registers.get r) :
    ∃ h : m.index.toNat + r.val < 0x1000,
      (m.step input).after.registers.get r = m.memory.bytes[m.index.toNat + r.val] := by
  have hb : m.index.toNat + (0 : UInt16).toNat < 0x10000 := m.index.toNat_lt
  have filled : (m.step input).after.registers.get r =
      ((m.memory.gather m.index 0 (x.toNat % 16 + 1)).after[r.val]?).getD
        (m.registers.get r) := by
    rw [(step_of_executes h input).1]
    exact m.pastWord.get_setRegisters _ r
  rw [filled] at changed ⊢
  cases hg : (m.memory.gather m.index 0 (x.toNat % 16 + 1)).after[r.val]? with
  | none =>
    rw [hg] at changed
    exact absurd rfl changed
  | some byte =>
    obtain ⟨hl, hv⟩ := Memory.getElem_of_gather hb hg
    exact ⟨hl, hv.symm⟩

theorem drawn_of_changed {row : Fin 32} {column : Fin 64}
    (changed : (m.step input).after.screen.pixel row column ≠ m.screen.pixel row column) :
    m.Executes .clear ∨ ∃ x y height d b, m.Executes (.draw x y height) ∧
      d < height.toNat ∧ b < 8 ∧ row.val = (m.register y).toNat % 32 + d ∧
      column.val = (m.register x).toNat % 64 + b := by
  have other : ¬Part.screen.Same m (m.step input).after := by
    intro same
    exact changed (congrArg (·.pixel row column) same)
  obtain ⟨i, hi, hp⟩ := executes_of_changed .screen other
  cases i with
  | clear => exact Or.inl hi
  | draw x y height =>
    right
    rw [(step_of_executes hi input).1] at changed
    simp only [execute] at changed
    split at changed
    · exact absurd rfl changed
    · rename_i bytes sliced
      obtain ⟨d, b, hd, hb, hr, hc⟩ := Screen.covered_of_changed_draw changed
      rw [Memory.length_of_slice sliced] at hd
      exact ⟨x, y, height, d, b, hi, hd, hb, hr, hc⟩
  | _ => simp [Instruction.footprint] at hp

theorem fits_of_reset {rom : Rom} {entropy : ChaCha.Key}
    (accepted : (m.reset rom entropy).fault = none) : Rom.start.toNat + rom.size ≤ 0x1000 := by
  simp only [reset, Memory.ofRom] at accepted
  by_cases fits : rom.size ≤ Rom.limit
  · exact Nat.add_le_add_left fits 0x200
  · rw [dif_neg fits] at accepted
    cases accepted

theorem inRange (m : Machine) (input : Input) : m.InRange input := by
  constructor
  · intro i hi r hr
    exact named_of_executes hi hr
  · intro word hf
    have hl := lt_of_fetch hf
    rw [fetch, m.memory.word_of_lt hl] at hf
    exact ⟨by omega, (Except.ok.inj hf).symm⟩
  · intro i n hi hn accepted
    exact reach_of_accepted hi hn accepted
  · intro x y height bytes hi sliced
    have hl := Memory.length_of_slice sliced
    refine ⟨hl, ?_⟩
    intro d hd
    exact Memory.getElem_of_slice sliced hd
  · intro a ha changed
    obtain ⟨first, x, ⟨hi, last⟩ | ⟨hi, last⟩⟩ := written_of_changed_step ha changed
    · exact ⟨_, _, a - m.index.toNat, hi, rfl, by omega, by omega⟩
    · have hx : x.toNat < 16 := lt_of_mem_operands hi x (.head _)
      exact ⟨_, _, a - m.index.toNat, hi, rfl, by omega, by omega⟩
  · intro x r hi changed
    exact loaded_of_changed hi changed
  · intro row column changed
    exact drawn_of_changed changed
  · intro rom entropy accepted
    exact fits_of_reset accepted

theorem addresses_bounded {settings : Settings} (h : m.Reachable settings) (input : Input) :
    m.pc.toNat ≤ 0x10FE ∧ m.stack.length ≤ settings.stackLimit ∧
      (∀ entry ∈ m.stack, 2 ≤ entry.toNat ∧ entry.toNat ≤ 0x1000) ∧
      m.Unwrapped input ∧ m.InRange input := by
  have bounded := h.bounded
  have room := h.stack_le
  rw [h.settings_eq] at room
  exact ⟨bounded.pc, room, bounded.entries, m.unwrapped input, m.inRange input⟩

theorem Reachable.steps {settings : Settings} (h : Reachable settings m) (input : Input) (n : Nat) :
    (Nat.repeat (fun m => (m.step input).after) n m).Reachable settings := by
  induction n with
  | zero => exact h
  | succ n ih => exact .obey input .step ih

/-- The program puts a call into the last two bytes of memory and executes it there; it goes to
`BFFF` with 255 in the first register. -/
def farthest : Machine :=
  Nat.repeat (fun m => (m.step .silent).after) 8
    (boot ⟨#[0x60, 0x22, 0x61, 0x0A, 0xAF, 0xFE, 0xF1, 0x55, 0x1F, 0xFE, 0x60, 0xFF, 0xBF, 0xFF]⟩
      {} (.replicate 8 0)).after

theorem addresses_bounded_farthest :
    farthest.pc = 0x10FE ∧ farthest.stack = [0x1000] ∧ farthest.Reachable {} ∧
      farthest.pc.toNat ≤ 0x10FE ∧ farthest.stack.length ≤ ({} : Settings).stackLimit ∧
      (∀ entry ∈ farthest.stack, 2 ≤ entry.toNat ∧ entry.toNat ≤ 0x1000) ∧
      farthest.Unwrapped .silent ∧ farthest.InRange .silent := by
  have reached : farthest.Reachable {} := .steps (.boot _ _ rfl) .silent 8
  have last : farthest.pc = 0x10FE ∧ farthest.stack = [0x1000] := by decide +kernel
  exact ⟨last.1, last.2, reached, addresses_bounded reached .silent⟩

end Chip8.Machine
