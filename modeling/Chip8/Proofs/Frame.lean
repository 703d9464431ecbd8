import Chip8.Instruction.Lemmas
import Chip8.Proofs.Cycle

/-! What one cycle may change, and where it leads. Every instruction has a footprint, the parts of the
machine that it writes, and leaves the other parts as they are whether it is refused or not. The
address it leads to is a sum of natural numbers that fits into sixteen bits, and the stack grows or
shrinks by one address at a time. -/

namespace Chip8

/-- The parts of a machine. The program counter is none of them, since every cycle moves it, and
the settings are none, since no cycle does. -/
inductive Part where
  | memory
  | screen
  | index
  | registers
  | delay
  | sound
  | stack
  | random
  | polled
  deriving DecidableEq, Repr

namespace Part

variable {m n k : Machine} {part : Part}

def Same (m n : Machine) : Part → Prop
  | memory => n.memory = m.memory
  | screen => n.screen = m.screen
  | index => n.index = m.index
  | registers => n.registers = m.registers
  | delay => n.delay = m.delay
  | sound => n.sound = m.sound
  | stack => n.stack = m.stack
  | random => n.random = m.random
  | polled => n.polled = m.polled

theorem same_refl (part : Part) (m : Machine) : part.Same m m := by
  cases part <;> rfl

theorem Same.trans (h : part.Same m n) (h' : part.Same n k) : part.Same m k := by
  cases part <;> exact Eq.trans h' h

end Part

def Instruction.footprint : Instruction → List Part
  | .clear => [.screen]
  | .ret | .call _ => [.stack]
  | .jump _ | .jumpOffset _ => []
  | .skipEqual .. | .skipUnequal .. | .skipSame .. | .skipDifferent .. => []
  | .load .. | .add .. | .arithmetic .. | .readDelay _ | .loadRegisters _ => [.registers]
  | .setIndex _ | .addIndex _ | .selectGlyph _ => [.index]
  | .random .. => [.registers, .random]
  | .draw .. => [.screen, .registers]
  | .skipHeld _ | .skipReleased _ => [.polled]
  | .awaitKey _ => [.registers, .polled]
  | .setDelay _ => [.delay]
  | .setSound _ => [.sound]
  | .storeDigits _ | .storeRegisters _ => [.memory]

namespace Machine

theorem same_pastWord (m : Machine) (part : Part) : part.Same m m.pastWord := by
  cases part <;> rfl

theorem same_skipIf (m : Machine) (condition : Bool) (part : Part) :
    part.Same m (m.skipIf condition) := by
  cases condition <;> cases part <;> rfl

theorem same_afterPoll (m : Machine) {part : Part} (h : part ≠ .polled) :
    part.Same m m.afterPoll := by
  cases part with
  | polled => exact absurd rfl h
  | _ => rfl

theorem same_setRegister (m : Machine) (r value : UInt8) {part : Part} (h : part ≠ .registers) :
    part.Same m (m.setRegister r value) := by
  cases part with
  | registers => exact absurd rfl h
  | _ => rfl

theorem same_compute (m : Machine) (op : Arithmetic) (x y : UInt8) {part : Part}
    (h : part ≠ .registers) : part.Same m (m.compute op x y) := by
  simp only [compute]
  split
  · exact m.same_setRegister x _ h
  · exact (m.same_setRegister x _ h).trans (same_setRegister _ _ _ h)

theorem same_execute (m : Machine) (input : Input) (i : Instruction) {part : Part}
    (h : part ∉ i.footprint) : part.Same m (m.execute input i).after := by
  cases i with
  | skipEqual | skipUnequal | skipSame | skipDifferent => exact m.same_skipIf _ part
  | skipHeld | skipReleased =>
    have hp : part ≠ .polled := by simpa [Instruction.footprint] using h
    exact (m.same_afterPoll hp).trans (m.afterPoll.same_skipIf _ part)
  | load | add | readDelay =>
    have hr : part ≠ .registers := by simpa [Instruction.footprint] using h
    exact m.same_setRegister _ _ hr
  | arithmetic op x y =>
    have hr : part ≠ .registers := by simpa [Instruction.footprint] using h
    exact m.same_compute op x y hr
  | ret | call | draw | awaitKey =>
    simp only [execute]
    split <;> cases part <;>
      simp_all [Part.Same, Instruction.footprint, Outcome.ok, Outcome.failed, setFlag,
        setRegister, afterPoll]
  | _ =>
    cases part <;>
      simp_all [Part.Same, Instruction.footprint, execute, Outcome.ok, Outcome.map, setRegister,
        setRegisters]

theorem same_step (m : Machine) (input : Input) (part : Part)
    (h : ∀ i, m.Executes i → part ∉ i.footprint) : part.Same m (m.step input).after := by
  rcases m.step_cases input with ⟨-, hs⟩ | ⟨-, -, -, hs, -⟩ | ⟨i, hi, hs, -⟩
  · rw [hs]
    exact part.same_refl m
  · rw [hs]
    exact m.same_pastWord part
  · rw [hs]
    exact (m.same_pastWord part).trans (m.pastWord.same_execute input i (h i hi))

/-- A part that is not what it was has been written by an instruction. -/
theorem executes_of_changed {m : Machine} {input : Input} (part : Part)
    (h : ¬part.Same m (m.step input).after) : ∃ i, m.Executes i ∧ part ∈ i.footprint := by
  apply Classical.byContradiction
  intro none
  apply h
  apply m.same_step input part
  intro i hi hp
  exact none ⟨i, hi, hp⟩

variable {m : Machine} {input : Input} {i : Instruction}

def skips (m : Machine) (input : Input) : Instruction → Bool
  | .skipEqual x byte => m.register x == byte
  | .skipUnequal x byte => m.register x != byte
  | .skipSame x y => m.register x == m.register y
  | .skipDifferent x y => m.register x != m.register y
  | .skipHeld x => (m.held input).contains (m.register x)
  | .skipReleased x => !(m.held input).contains (m.register x)
  | _ => false

/-- Where a cycle leads that executes an instruction, with or without a fault. -/
def successor (m : Machine) (input : Input) (fault : Option Fault) (i : Instruction) : Nat :=
  match i with
  | .ret =>
    match fault, m.stack with
    | none, address :: _ => address.toNat
    | _, _ => m.pc.toNat + 2
  | .jump target => target.toNat
  | .call target => if fault = none then target.toNat else m.pc.toNat + 2
  | .jumpOffset base => base.toNat + (m.register 0).toNat
  | .awaitKey _ => if m.held input = [] then m.pc.toNat else m.pc.toNat + 2
  | i => if m.skips input i then m.pc.toNat + 4 else m.pc.toNat + 2

theorem step_of_executes (h : m.Executes i) (input : Input) :
    (m.step input).after = (m.pastWord.execute input i).after ∧
      (m.step input).fault = (m.pastWord.execute input i).fault := by
  obtain ⟨word, hf, hw⟩ := h
  rw [step_of_known hf hw input]
  exact ⟨rfl, rfl⟩

theorem toNat_pc_skipIf {p : Nat} (h : m.pc.toNat = p + 2) (hl : p < 0xFFF) (condition : Bool) :
    (m.skipIf condition).pc.toNat = if condition then p + 4 else p + 2 := by
  cases condition with
  | false => exact h
  | true =>
    simp only [skipIf, if_true, UInt16.toNat_add, UInt16.reduceToNat]
    omega

theorem toNat_add_register {base : UInt16} (h : base.toNat < 0x1000) (value : UInt8) :
    (base + value.toUInt16).toNat = base.toNat + value.toNat := by
  have hv := value.toNat_lt
  rw [UInt16.toNat_add, UInt8.toNat_toUInt16]
  omega

theorem pc_compute (m : Machine) (op : Arithmetic) (x y : UInt8) :
    (m.compute op x y).pc = m.pc := by
  simp only [compute]
  split <;> rfl

theorem pc_step (h : m.Executes i) (input : Input) :
    (m.step input).after.pc.toNat = m.successor input (m.step input).fault i := by
  obtain ⟨ha, hf⟩ := step_of_executes h input
  obtain ⟨word, hw, decoded⟩ := h
  have hl := lt_of_fetch hw
  have hp := toNat_pc_pastWord hl
  rw [ha, hf]
  cases i with
  | skipEqual | skipUnequal | skipSame | skipDifferent => exact toNat_pc_skipIf hp hl _
  | skipHeld | skipReleased => exact toNat_pc_skipIf (m := m.pastWord.afterPoll) hp hl _
  | arithmetic op x y => exact (congrArg UInt16.toNat (m.pastWord.pc_compute op x y)).trans hp
  | ret =>
    have same : m.pastWord.stack = m.stack := rfl
    simp only [execute, successor, same]
    cases m.stack with
    | nil => exact hp
    | cons address rest => rfl
  | call target =>
    simp only [execute, successor]
    split
    · rfl
    · exact hp
  | jump target => rfl
  | jumpOffset base =>
    exact toNat_add_register (Instruction.toNat_lt_of_address? decoded rfl) (m.register 0)
  | draw x y height =>
    simp only [execute, successor]
    split <;> exact hp
  | awaitKey x =>
    have same : m.pastWord.held input = m.held input := rfl
    simp only [execute, successor, same]
    cases m.held input with
    | nil =>
      have back : m.pastWord.pc - 2 = m.pc := UInt16.add_sub_cancel m.pc 2
      exact congrArg UInt16.toNat back
    | cons key others => exact hp
  | _ => exact hp

theorem pc_step_of_unknown {word : UInt16} (h : m.fetch = .ok word)
    (unknown : ∀ i, Instruction.ofWord word ≠ .ok i) (input : Input) :
    (m.step input).after.pc.toNat = m.pc.toNat + 2 := by
  cases hw : Instruction.ofWord word with
  | ok i => exact absurd hw (unknown i)
  | error fault =>
    rw [step_of_unknown h hw input]
    exact toNat_pc_pastWord (lt_of_fetch h)

theorem stack_step_of_call {target : UInt16} (h : m.Executes (.call target))
    (accepted : (m.step input).fault = none) :
    (m.step input).after.stack = m.pastWord.pc :: m.stack := by
  obtain ⟨ha, hf⟩ := step_of_executes h input
  rw [hf] at accepted
  rw [ha]
  simp only [execute] at accepted ⊢
  split at accepted
  · rename_i room
    rw [if_pos room]
    rfl
  · cases accepted

/-- The stack stays, or a call puts the address behind itself on top of it, or a return takes off
the address that it goes to. -/
theorem stack_step (m : Machine) (input : Input) :
    (m.step input).after.stack = m.stack ∨
      (∃ target, m.Executes (.call target) ∧
        (m.step input).after.stack = m.pastWord.pc :: m.stack) ∨
      (m.Executes .ret ∧ m.stack = (m.step input).after.pc :: (m.step input).after.stack) := by
  by_cases same : Part.stack.Same m (m.step input).after
  · exact Or.inl same
  · obtain ⟨i, hi, hp⟩ := executes_of_changed .stack same
    obtain ⟨ha, hf⟩ := step_of_executes hi input
    cases i with
    | call target =>
      cases accepted : (m.step input).fault with
      | none => exact Or.inr (Or.inl ⟨target, hi, stack_step_of_call hi accepted⟩)
      | some fault =>
        rw [hf] at accepted
        rcases after_of_refused accepted with ⟨x, h | h | h⟩ | kept
        any_goals cases h
        rw [ha, kept] at same
        exact absurd rfl same
    | ret =>
      right
      right
      refine ⟨hi, ?_⟩
      rw [ha] at same ⊢
      simp only [execute] at same ⊢
      cases hs : m.pastWord.stack with
      | nil =>
        rw [hs] at same
        exact absurd rfl same
      | cons address rest => exact hs
    | _ => simp [Instruction.footprint] at hp

end Machine

def Arithmetic.flagged : Arithmetic → Bool
  | .copy | .or | .and | .xor => false
  | .add | .subtract | .shiftRight | .subtractFrom | .shiftLeft => true

def Instruction.Fills (held : List UInt8) (r : Fin 16) : Instruction → Prop
  | .load x _ | .add x _ | .random x _ | .readDelay x => r.val = x.toNat
  | .arithmetic op x _ => r.val = x.toNat ∨ (op.flagged = true ∧ r.val = 0xF)
  | .draw .. => r.val = 0xF
  | .awaitKey x => held ≠ [] ∧ r.val = x.toNat
  | .loadRegisters x => r.val ≤ x.toNat
  | _ => False

theorem Arithmetic.flagged_of_apply {op : Arithmetic} {a b result : UInt8} {flag : Bool}
    (h : op.apply a b = (result, some flag)) : op.flagged = true := by
  cases op <;> first | rfl | cases h

namespace Machine

variable {m : Machine} {input : Input} {i : Instruction}

theorem get_setRegister (m : Machine) (x value : UInt8) (r : Fin 16) :
    (m.setRegister x value).registers.get r =
      if r.val = x.toNat % 16 then value else m.registers.get r := by
  have hg : (m.setRegister x value).registers.get r =
      (m.setRegister x value).registers[r.val] := rfl
  rw [hg]
  simp only [setRegister, Vector.getElem_set, eq_comm]
  rfl

theorem eq_of_changed_setRegister {x value : UInt8} {r : Fin 16} (hx : x.toNat < 16)
    (h : (m.setRegister x value).registers.get r ≠ m.registers.get r) : r.val = x.toNat := by
  rw [get_setRegister, Nat.mod_eq_of_lt hx] at h
  apply Classical.byContradiction
  intro hr
  exact h (if_neg hr)

theorem eq_of_changed_compute {op : Arithmetic} {x y : UInt8} {r : Fin 16} (hx : x.toNat < 16)
    (h : (m.compute op x y).registers.get r ≠ m.registers.get r) :
    r.val = x.toNat ∨ (op.flagged = true ∧ r.val = 0xF) := by
  simp only [compute] at h
  split at h
  · exact Or.inl (eq_of_changed_setRegister hx h)
  · rename_i result flag applied
    by_cases hr : r.val = 0xF
    · exact Or.inr ⟨Arithmetic.flagged_of_apply applied, hr⟩
    · have kept := ((m.setRegister x result).get_setRegister 0xF flag.toUInt8 r).trans (if_neg hr)
      left
      apply eq_of_changed_setRegister hx
      intro same
      exact h (kept.trans same)

theorem fills_of_changed (named : ∀ r ∈ i.operands, r.toNat < 16) {r : Fin 16}
    (h : (m.execute input i).after.registers.get r ≠ m.registers.get r) :
    i.Fills (m.held input) r := by
  have hp : .registers ∈ i.footprint := by
    apply Classical.byContradiction
    intro hp
    exact h (congrArg (·.get r) (m.same_execute input i hp))
  cases i with
  | load x | add x | random x | readDelay x =>
    exact eq_of_changed_setRegister (named x (.head _)) h
  | arithmetic op x y => exact eq_of_changed_compute (named x (.head _)) h
  | draw x y height =>
    simp only [execute] at h
    split at h
    · exact absurd rfl h
    · exact eq_of_changed_setRegister (x := 0xF) (by decide) h
  | awaitKey x =>
    simp only [execute] at h
    split at h
    · exact absurd rfl h
    · rename_i key others held
      refine ⟨by simp [held], ?_⟩
      exact eq_of_changed_setRegister (m := m.afterPoll) (named x (.head _)) h
  | loadRegisters x => exact le_of_changed_setRegisters h
  | _ => simp [Instruction.footprint] at hp

theorem lt_of_mem_operands (h : m.Executes i) : ∀ r ∈ i.operands, r.toNat < 16 := by
  obtain ⟨word, -, decoded⟩ := h
  intro r hr
  exact Instruction.toNat_lt_of_mem_operands decoded hr

theorem fills_of_changed_step {r : Fin 16}
    (h : (m.step input).after.registers.get r ≠ m.registers.get r) :
    ∃ i, m.Executes i ∧ i.Fills (m.held input) r := by
  have changed : ¬Part.registers.Same m (m.step input).after := by
    intro same
    exact h (congrArg (·.get r) same)
  obtain ⟨i, hi, -⟩ := executes_of_changed .registers changed
  refine ⟨i, hi, fills_of_changed (m := m.pastWord) (lt_of_mem_operands hi) ?_⟩
  rwa [(step_of_executes hi input).1] at h

/-- A byte that changes lies no further behind the index than the instruction reaches. -/
theorem written_of_changed_step {a : Nat} (ha : a < 0x1000)
    (h : (m.step input).after.memory.bytes[a] ≠ m.memory.bytes[a]) :
    m.index.toNat ≤ a ∧ ∃ x, (m.Executes (.storeDigits x) ∧ a ≤ m.index.toNat + 2) ∨
      (m.Executes (.storeRegisters x) ∧ a ≤ m.index.toNat + x.toNat) := by
  have changed : ¬Part.memory.Same m (m.step input).after := by
    intro same
    exact h (congrArg (·.bytes[a]) same)
  obtain ⟨i, hi, hp⟩ := executes_of_changed .memory changed
  rw [(step_of_executes hi input).1] at h
  cases i with
  | storeDigits x =>
    obtain ⟨first, last⟩ := Memory.range_of_store ha h
    exact ⟨first, x, Or.inl ⟨hi, Nat.le_of_lt_succ last⟩⟩
  | storeRegisters x =>
    obtain ⟨first, last⟩ := Memory.range_of_store ha h
    have hx : x.toNat < 16 := lt_of_mem_operands hi x (.head _)
    rw [length_registersTo, Nat.mod_eq_of_lt hx] at last
    exact ⟨first, x, Or.inr ⟨hi, Nat.le_of_lt_succ last⟩⟩
  | _ => simp [Instruction.footprint] at hp

theorem random_step_of_random {x mask : UInt8} (h : m.Executes (.random x mask)) :
    (m.step input).after.random = m.random.next.2 := by
  rw [(step_of_executes h input).1]
  rfl

/-- What a cycle leaves of a machine, with or without a fault. An instruction stands for all words
that decode to it, and there is no memory but the 4096 bytes. -/
structure Frame (m : Machine) (input : Input) (after : Machine) (fault : Option Fault) :
    Prop where
  settings : after.settings = m.settings
  screen : after.screen ≠ m.screen →
    m.Executes .clear ∨ ∃ x y height, m.Executes (.draw x y height)
  memory : ∀ a (h : a < 0x1000), after.memory.bytes[a] ≠ m.memory.bytes[a] →
    m.index.toNat ≤ a ∧ ∃ x, (m.Executes (.storeDigits x) ∧ a ≤ m.index.toNat + 2) ∨
      (m.Executes (.storeRegisters x) ∧ a ≤ m.index.toNat + x.toNat)
  stack : after.stack = m.stack ∨
    (∃ target, m.Executes (.call target) ∧ after.stack = m.pastWord.pc :: m.stack) ∨
    (m.Executes .ret ∧ m.stack = after.pc :: after.stack)
  index : after.index ≠ m.index → (∃ address, m.Executes (.setIndex address)) ∨
    ∃ x, m.Executes (.addIndex x) ∨ m.Executes (.selectGlyph x)
  delay : after.delay ≠ m.delay → ∃ x, m.Executes (.setDelay x)
  sound : after.sound ≠ m.sound → ∃ x, m.Executes (.setSound x)
  drawn : ∀ x mask, m.Executes (.random x mask) → after.random = m.random.next.2
  undrawn : (∀ x mask, ¬m.Executes (.random x mask)) → after.random = m.random
  polled : after.polled ≠ m.polled →
    ∃ x, m.Executes (.skipHeld x) ∨ m.Executes (.skipReleased x) ∨ m.Executes (.awaitKey x)
  registers : ∀ r, after.registers.get r ≠ m.registers.get r →
    ∃ i, m.Executes i ∧ i.Fills (m.held input) r
  unfetched : (∀ word, m.fetch ≠ .ok word) → after = m
  unknown : ∀ word, m.fetch = .ok word → (∀ i, Instruction.ofWord word ≠ .ok i) →
    after.pc.toNat = m.pc.toNat + 2
  known : ∀ i, m.Executes i → after.pc.toNat = m.successor input fault i

theorem frame_law (m : Machine) (input : Input) :
    Frame m input (m.step input).after (m.step input).fault := by
  constructor
  · exact m.settings_step input
  · intro changed
    obtain ⟨i, hi, hp⟩ := executes_of_changed .screen changed
    cases i with
    | clear => exact Or.inl hi
    | draw x y height => exact Or.inr ⟨x, y, height, hi⟩
    | _ => simp [Instruction.footprint] at hp
  · intro a ha changed
    exact written_of_changed_step ha changed
  · exact m.stack_step input
  · intro changed
    obtain ⟨i, hi, hp⟩ := executes_of_changed .index changed
    cases i with
    | setIndex address => exact Or.inl ⟨address, hi⟩
    | addIndex x => exact Or.inr ⟨x, Or.inl hi⟩
    | selectGlyph x => exact Or.inr ⟨x, Or.inr hi⟩
    | _ => simp [Instruction.footprint] at hp
  · intro changed
    obtain ⟨i, hi, hp⟩ := executes_of_changed .delay changed
    cases i with
    | setDelay x => exact ⟨x, hi⟩
    | _ => simp [Instruction.footprint] at hp
  · intro changed
    obtain ⟨i, hi, hp⟩ := executes_of_changed .sound changed
    cases i with
    | setSound x => exact ⟨x, hi⟩
    | _ => simp [Instruction.footprint] at hp
  · intro x mask hi
    exact random_step_of_random hi
  · intro none
    apply m.same_step input .random
    intro i hi hp
    cases i with
    | random x mask => exact none x mask hi
    | _ => simp [Instruction.footprint] at hp
  · intro changed
    obtain ⟨i, hi, hp⟩ := executes_of_changed .polled changed
    cases i with
    | skipHeld x => exact ⟨x, Or.inl hi⟩
    | skipReleased x => exact ⟨x, Or.inr (Or.inl hi)⟩
    | awaitKey x => exact ⟨x, Or.inr (Or.inr hi)⟩
    | _ => simp [Instruction.footprint] at hp
  · intro r changed
    exact fills_of_changed_step changed
  · intro unfetched
    rcases m.step_cases input with ⟨-, hs⟩ | ⟨word, hf, -⟩ | ⟨i, ⟨word, hf, -⟩, -⟩
    · rw [hs]
    · exact absurd hf (unfetched word)
    · exact absurd hf (unfetched word)
  · intro word hf unknown
    exact pc_step_of_unknown hf unknown input
  · intro i hi
    exact pc_step hi input

end Machine

end Chip8
