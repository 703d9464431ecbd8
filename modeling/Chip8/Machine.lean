import Chip8.Instruction
import Chip8.Keypad
import Chip8.Memory
import Chip8.Random
import Chip8.Screen
import Chip8.Settings

/-! The machine: its state, how it starts, the effect of every instruction with the program counter
already past its word, and what passes time in it, its cycles and its two timers. -/

namespace Chip8

structure Machine where
  settings : Settings
  memory : Memory
  screen : Screen
  /-- The address of the next word. -/
  pc : UInt16
  index : UInt16
  registers : Vector UInt8 16
  delay : UInt8
  sound : UInt8
  /-- The addresses that calls will return to, the innermost first. -/
  stack : List UInt16
  random : RandomStream
  /-- How often the held keys have been asked for. The input stays attached over a reset, so
  this count does too. -/
  polled : Nat
  deriving DecidableEq

namespace Machine

def startRandom (settings : Settings) (entropy : ChaCha.Key) : RandomStream :=
  match settings.seed with
  | some seed => .ofSeed seed
  | none => { key := entropy }

def blank (settings : Settings) (entropy : ChaCha.Key) : Machine where
  settings := settings
  memory := .initial
  screen := .blank
  pc := Rom.start
  index := 0
  registers := .replicate 16 0
  delay := 0
  sound := 0
  stack := []
  random := startRandom settings entropy
  polled := 0

def boot (rom : Rom) (settings : Settings) (entropy : ChaCha.Key) : Outcome Machine :=
  match Memory.ofRom rom with
  | .ok memory => { after := { blank settings entropy with memory }, log := #[.loaded rom.size] }
  | .error fault => .failed (blank settings entropy) fault

def reset (m : Machine) (rom : Rom) (entropy : ChaCha.Key) : Outcome Machine :=
  match Memory.ofRom rom with
  | .ok memory =>
    { after := { blank m.settings entropy with memory, polled := m.polled }
      log := #[.reloaded rom.size] }
  | .error fault => .failed m fault

def countDown (timer : UInt8) : UInt8 := if timer = 0 then 0 else timer - 1

def tick (m : Machine) : Machine :=
  { m with delay := countDown m.delay, sound := countDown m.sound }

def isBeeping (m : Machine) : Bool := m.sound != 0

def register (m : Machine) (r : UInt8) : UInt8 := m.registers[r.toNat % 16]

def setRegister (m : Machine) (r value : UInt8) : Machine :=
  { m with registers := m.registers.set (r.toNat % 16) value }

def setFlag (m : Machine) (flag : Bool) : Machine := m.setRegister 0xF flag.toUInt8

def registersTo (m : Machine) (x : UInt8) : List UInt8 := m.registers.toList.take (x.toNat % 16 + 1)

def setRegisters (m : Machine) (bytes : List UInt8) : Machine :=
  { m with registers := .ofFn fun r => (bytes[r.val]?).getD (m.registers.get r) }

end Machine

/-- The result of an operation on two registers, and the flag of those that set one: carry,
absence of a borrow, or the bit shifted out. -/
def Arithmetic.apply (a b : UInt8) : Arithmetic → UInt8 × Option Bool
  | .copy => (b, none)
  | .or => (a ||| b, none)
  | .and => (a &&& b, none)
  | .xor => (a ^^^ b, none)
  | .add => (a + b, some (255 < a.toNat + b.toNat))
  | .subtract => (a - b, some (b ≤ a))
  | .subtractFrom => (b - a, some (a ≤ b))
  | .shiftRight => (a >>> 1, some (a &&& 1 = 1))
  | .shiftLeft => (a <<< 1, some (a >>> 7 = 1))

def decimalDigits (value : UInt8) : List UInt8 := [value / 100, value / 10 % 10, value % 10]

namespace Machine

def skipIf (m : Machine) (condition : Bool) : Machine :=
  if condition then { m with pc := m.pc + 2 } else m

def held (m : Machine) (input : Input) : List UInt8 := input m.polled

def afterPoll (m : Machine) : Machine := { m with polled := m.polled + 1 }

/-- The flag is written last, so as a destination the flag register ends up with the flag. -/
def compute (m : Machine) (op : Arithmetic) (x y : UInt8) : Machine :=
  match op.apply (m.register x) (m.register y) with
  | (result, none) => m.setRegister x result
  | (result, some flag) => (m.setRegister x result).setFlag flag

def execute (m : Machine) (input : Input) : Instruction → Outcome Machine
  | .clear => .ok { m with screen := .blank }
  | .ret =>
    match m.stack with
    | [] => .failed m .stackUnderflow
    | address :: rest => .ok { m with pc := address, stack := rest }
  | .jump target => .ok { m with pc := target }
  | .call target =>
    if m.stack.length < m.settings.stackLimit then
      .ok { m with pc := target, stack := m.pc :: m.stack }
    else .failed m (.stackOverflow m.settings.stackLimit)
  | .skipEqual x byte => .ok (m.skipIf (m.register x == byte))
  | .skipUnequal x byte => .ok (m.skipIf (m.register x != byte))
  | .skipSame x y => .ok (m.skipIf (m.register x == m.register y))
  | .load x byte => .ok (m.setRegister x byte)
  | .add x byte => .ok (m.setRegister x (m.register x + byte))
  | .arithmetic op x y => .ok (m.compute op x y)
  | .skipDifferent x y => .ok (m.skipIf (m.register x != m.register y))
  | .setIndex address => .ok { m with index := address }
  | .jumpOffset base => .ok { m with pc := base + (m.register 0).toUInt16 }
  | .random x mask =>
    .ok ({ m with random := m.random.next.2 }.setRegister x (m.random.next.1 &&& mask))
  | .draw x y height =>
    match m.memory.slice m.index height.toNat with
    | .error fault => .failed m fault
    | .ok bytes =>
      match m.screen.draw (m.register x) (m.register y) bytes with
      | (screen, collision) => .ok ({ m with screen }.setFlag collision)
  | .skipHeld x => .ok (m.afterPoll.skipIf ((m.held input).contains (m.register x)))
  | .skipReleased x => .ok (m.afterPoll.skipIf (!(m.held input).contains (m.register x)))
  | .readDelay x => .ok (m.setRegister x m.delay)
  | .awaitKey x =>
    match m.held input with
    -- the same word comes again in the next cycle, and the timers keep going
    | [] => .ok { m.afterPoll with pc := m.pc - 2 }
    | key :: _ => .ok (m.afterPoll.setRegister x key)
  | .setDelay x => .ok { m with delay := m.register x }
  | .setSound x => .ok { m with sound := m.register x }
  | .addIndex x => .ok { m with index := m.index + (m.register x).toUInt16 }
  | .selectGlyph x => .ok { m with index := Font.address (m.register x) }
  | .storeDigits x =>
    (m.memory.store m.index 0 (decimalDigits (m.register x))).map fun memory => { m with memory }
  | .storeRegisters x =>
    (m.memory.store m.index 0 (m.registersTo x)).map fun memory => { m with memory }
  | .loadRegisters x =>
    (m.memory.gather m.index 0 (x.toNat % 16 + 1)).map fun bytes => m.setRegisters bytes

def fetch (m : Machine) : Except Fault UInt16 := m.memory.word m.pc

def pastWord (m : Machine) : Machine := { m with pc := m.pc + 2 }

/-- Fetches a word, moves past it, and executes what it stands for. A word that cannot be
fetched leaves everything as it is and is not logged; an unknown one has been passed. -/
def step (m : Machine) (input : Input) : Outcome Machine :=
  match m.fetch with
  | .error fault => .failed m fault
  | .ok word =>
    match Instruction.ofWord word with
    | .error fault =>
      { after := m.pastWord, fault := some fault, log := #[.fetched word m.pc] }
    | .ok instruction =>
      { m.pastWord.execute input instruction with log := #[.fetched word m.pc] }

theorem register_setRegister (m : Machine) (r q value : UInt8) :
    (m.setRegister r value).register q =
      if r.toNat % 16 = q.toNat % 16 then value else m.register q := by
  simp [setRegister, register, Vector.getElem_set]

@[simp] theorem register_setRegister_self (m : Machine) (r value : UInt8) :
    (m.setRegister r value).register r = value := by
  simp [register_setRegister]

theorem toNat_ofNat_mod (r : Fin 16) : (UInt8.ofNat r.val).toNat % 16 = r.val := by
  rw [UInt8.toNat_ofNat']
  omega

theorem register_ofNat (m : Machine) (r : Fin 16) :
    m.register (.ofNat r.val) = m.registers.get r := by
  simp only [register, toNat_ofNat_mod]
  rfl

theorem toNat_countDown (timer : UInt8) : (countDown timer).toNat = timer.toNat - 1 := by
  have small := timer.toNat_lt
  simp only [countDown]
  by_cases h : timer = 0
  · rw [if_pos h, h]
    rfl
  · have positive : 0 < timer.toNat := by
      apply Nat.pos_of_ne_zero
      intro none
      exact h (UInt8.toNat_inj.mp none)
    rw [if_neg h, UInt8.toNat_sub, UInt8.toNat_one]
    omega

theorem countDown_eq_self_iff {timer : UInt8} : countDown timer = timer ↔ timer = 0 := by
  rw [← UInt8.toNat_inj, ← UInt8.toNat_inj, toNat_countDown, UInt8.toNat_zero]
  omega

theorem step_of_fetch_error {m : Machine} {fault : Fault} (h : m.fetch = .error fault)
    (input : Input) : m.step input = { after := m, fault := some fault } := by
  simp [step, h, Outcome.failed]

theorem step_of_unknown {m : Machine} {word : UInt16} {fault : Fault} (h : m.fetch = .ok word)
    (unknown : Instruction.ofWord word = .error fault) (input : Input) :
    m.step input =
      { after := m.pastWord, fault := some fault, log := #[.fetched word m.pc] } := by
  simp [step, h, unknown]

theorem step_of_known {m : Machine} {word : UInt16} {instruction : Instruction}
    (h : m.fetch = .ok word) (known : Instruction.ofWord word = .ok instruction)
    (input : Input) :
    m.step input =
      { m.pastWord.execute input instruction with log := #[.fetched word m.pc] } := by
  simp [step, h, known]

@[simp] theorem settings_skipIf (m : Machine) (condition : Bool) :
    (m.skipIf condition).settings = m.settings := by
  unfold skipIf
  split <;> rfl

@[simp] theorem settings_compute (m : Machine) (op : Arithmetic) (x y : UInt8) :
    (m.compute op x y).settings = m.settings := by
  unfold compute
  split <;> rfl

theorem settings_execute (m : Machine) (input : Input) (instruction : Instruction) :
    (m.execute input instruction).after.settings = m.settings := by
  cases instruction with
  | ret | call | draw | awaitKey => simp only [execute]; split <;> rfl
  | skipEqual | skipUnequal | skipSame | skipDifferent | skipHeld | skipReleased | arithmetic =>
    simp [execute, Outcome.ok, afterPoll]
  | _ => rfl

theorem settings_step (m : Machine) (input : Input) :
    (m.step input).after.settings = m.settings := by
  unfold step
  split
  · rfl
  · split
    · rfl
    · exact settings_execute ..

end Machine

end Chip8
