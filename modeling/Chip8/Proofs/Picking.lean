import Chip8.Proofs.Disguise
import Chip8.Proofs.Frame
import Chip8.Proofs.Messages

/-! Picking a file. A program that fits starts over, and what was done to the window before cannot
be told from it any more. The random bytes are others, but a program sees them by one instruction
only, and not even by that one if its mask is zero. -/

namespace Chip8

def Instruction.isRandom : Instruction → Bool
  | .random _ mask => mask != 0
  | _ => false

def Masked (instructions : List Instruction) : Prop := ∀ i ∈ instructions, i.isRandom = false

instance (instructions : List Instruction) : Decidable (Masked instructions) :=
  inferInstanceAs (Decidable (∀ i ∈ instructions, i.isRandom = false))

theorem masked_append {before after : List Instruction} :
    Masked (before ++ after) ↔ Masked before ∧ Masked after := List.forall_mem_append

namespace Machine

variable {m : Machine} {input : Input} {i : Instruction}

def withRandom (random : RandomStream) (m : Machine) : Machine := { m with random }

theorem executed_cons (m : Machine) (input : Input) (task : Task) (rest : List Task) :
    m.executed input (task :: rest) =
      m.executed input [task] ++ (m.perform input task).after.executed input rest := by
  cases task with
  | tick => rfl
  | cycle =>
    simp only [executed, List.append_nil]
    rfl

theorem execute_withRandom (masked : i.isRandom = false) (random : RandomStream) (input : Input) :
    ∃ later, (m.withRandom random).execute input i =
      (m.execute input i).map (withRandom later) := by
  cases i with
  | random x mask =>
    obtain rfl : mask = 0 := by simpa [Instruction.isRandom] using masked
    refine ⟨random.next.2, ?_⟩
    simp only [execute, UInt8.and_zero]
    rfl
  | _ =>
    refine ⟨random, ?_⟩
    apply execute_disguised (d := { random := fun _ => random })
    · exact fun _ => rfl
    · exact fun _ => rfl
    · exact fun _ => ⟨rfl, rfl⟩
    · intro x mask other
      cases other

theorem step_withRandom (masked : ∀ i, m.Executes i → i.isRandom = false)
    (random : RandomStream) (input : Input) :
    ∃ later, (m.withRandom random).step input = (m.step input).map (withRandom later) := by
  rcases m.step_disguised { random := fun _ => random } input input with
    ⟨-, same⟩ | ⟨i, executes, lift⟩
  · exact ⟨random, same⟩
  · obtain ⟨later, executed⟩ := m.pastWord.execute_withRandom (masked i executes) random input
    exact ⟨later, lift _ executed⟩

theorem reset_withRandom (m : Machine) (random : RandomStream) (rom : Rom)
    (entropy chance : ChaCha.Key) :
    ∃ later, (m.withRandom random).reset rom chance =
      (m.reset rom entropy).map (withRandom later) := by
  simp only [reset]
  cases Memory.ofRom rom with
  | ok memory => exact ⟨startRandom m.settings chance, rfl⟩
  | error fault => exact ⟨random, rfl⟩

theorem unaware_of_masked {tasks : List Task} (masked : Masked (m.executed input tasks)) :
    m.Unaware (fun random => { random := fun _ => random }) input input tasks := by
  induction tasks generalizing m with
  | nil => trivial
  | cons task rest ih =>
    rw [executed_cons, masked_append] at masked
    refine ⟨?_, ih masked.2⟩
    intro random
    cases task with
    | tick => exact ⟨random, rfl⟩
    | cycle =>
      have harmless : ∀ i, m.Executes i → i.isRandom = false := by
        intro i executes
        apply masked.1 i
        simp [executed, next?_eq_some_iff.mpr executes]
      exact step_withRandom harmless random input

end Machine

def Scheduler.withRandom (random : RandomStream) (s : Scheduler) : Scheduler :=
  { s with machine := s.machine.withRandom random }

def Stretch.withRandom (random : RandomStream) (stretch : Stretch) : Stretch :=
  { stretch with scheduler := stretch.scheduler.withRandom random }

namespace Scheduler

variable {s : Scheduler} {input : Input}

/-- Time passes in the same way whatever the random bytes, if no byte that counts is taken. -/
theorem advance_withRandom {elapsed patience : Nat}
    (masked : Masked (s.machine.executed input
      (s.advance input elapsed patience).performed.toList)) (random : RandomStream) :
    ∃ later, (s.withRandom random).advance input elapsed patience =
      (s.advance input elapsed patience).withRandom later :=
  s.advance_disguised (Machine.unaware_of_masked masked) random

theorem reset_withRandom (s : Scheduler) (random : RandomStream) (rom : Rom)
    (entropy chance : ChaCha.Key) :
    ∃ later, (s.withRandom random).reset rom chance =
      (s.reset rom entropy).map (withRandom later) := by
  obtain ⟨later, same⟩ := s.machine.reset_withRandom random rom entropy chance
  simp only [reset, withRandom, same, Outcome.map]
  cases (s.machine.reset rom entropy).fault with
  | none => exact ⟨later, rfl⟩
  | some fault => exact ⟨random, rfl⟩

end Scheduler

/-- The message without what the operating system adds to it by chance. -/
def Message.unseeded : Message → Message
  | .filePicked file? _ => .filePicked file? (.replicate 8 0)
  | message => message

namespace Window

variable {w : Window} {message other : Message} {messages others : List Message}

/-- What can be seen in a window from now on: its texts and its picture, once before the messages
and then after each of them. -/
def shown (w : Window) : List Message → List (List String × Screen)
  | [] => [(w.texts, w.picture)]
  | message :: rest => (w.texts, w.picture) :: (w.update message).window.shown rest

def executed (w : Window) : List Message → List Instruction
  | [] => []
  | message :: rest =>
    w.scheduler.machine.executed w.keypad.input (w.tasks message) ++
      (w.update message).window.executed rest

def withRandom (random : RandomStream) (w : Window) : Window :=
  { w with scheduler := w.scheduler.withRandom random }

def askedBefore (k : Nat) (w : Window) : Window :=
  { w with scheduler := w.scheduler.askedBefore k }

theorem load_askedBefore (w : Window) (k : Nat) (file : PickedFile) (entropy : ChaCha.Key) :
    ((w.askedBefore k).load file entropy).window = (w.load file entropy).window.askedBefore k := by
  cases read : file.contents with
  | error e => rw [load_of_error read, load_of_error read]
  | ok rom =>
    by_cases fits : rom.size ≤ Rom.limit
    · rw [load_of_le read fits, load_of_le read fits]
      have restarted := w.scheduler.reset_askedBefore k rom entropy
      simp only [askedBefore, restarted]
      rfl
    · have large := Nat.not_le.mp fits
      rw [load_of_lt read large, load_of_lt read large]
      rfl

/-- A window asks its keypad, which gives the same answer every time. -/
theorem update_askedBefore (w : Window) (k : Nat) (message : Message) :
    ((w.askedBefore k).update message).window = (w.update message).window.askedBefore k := by
  cases message with
  | tick now =>
    have stretched : (w.askedBefore k).stretchTo now = (w.stretchTo now).askedBefore k :=
      w.scheduler.advance_askedBefore k w.keypad.input (w.elapsed now) 0
    rw [update_tick, update_tick, stretched]
    rfl
  | keyPressed key | keyReleased key =>
    simp only [update, setKey]
    cases key.code? <;> rfl
  | fileWanted => rfl
  | filePicked file? entropy =>
    cases file? with
    | none => rfl
    | some file => exact w.load_askedBefore k file entropy

theorem shown_askedBefore (w : Window) (k : Nat) (messages : List Message) :
    (w.askedBefore k).shown messages = w.shown messages := by
  induction messages generalizing w with
  | nil => rfl
  | cons message rest ih =>
    rw [shown, shown, update_askedBefore, ih]
    rfl

/-- The entropy of a start is the first of its random bytes. -/
theorem load_withRandom (w : Window) (random : RandomStream) (file : PickedFile)
    (entropy chance : ChaCha.Key) :
    ∃ later, ((w.withRandom random).load file chance).window =
      (w.load file entropy).window.withRandom later := by
  cases read : file.contents with
  | error e =>
    rw [load_of_error read, load_of_error read]
    exact ⟨random, rfl⟩
  | ok rom =>
    by_cases fits : rom.size ≤ Rom.limit
    · obtain ⟨later, restarted⟩ := w.scheduler.reset_withRandom random rom entropy chance
      refine ⟨later, ?_⟩
      rw [load_of_le read fits, load_of_le read fits]
      simp only [withRandom, restarted]
      rfl
    · have large := Nat.not_le.mp fits
      rw [load_of_lt read large, load_of_lt read large]
      exact ⟨random, rfl⟩

theorem eq_of_unseeded (alike : other.unseeded = message.unseeded) :
    other = message ∨ ∃ file? entropy chance,
      message = .filePicked file? entropy ∧ other = .filePicked file? chance := by
  cases message with
  | filePicked file? entropy =>
    cases other with
    | filePicked other? chance =>
      obtain ⟨rfl, -⟩ := Message.filePicked.inj alike
      exact Or.inr ⟨other?, entropy, chance, rfl, rfl⟩
    | _ => cases alike
  | _ =>
    cases other with
    | filePicked => cases alike
    | _ => exact Or.inl alike

/-- While no random byte counts, other random bytes and other entropy make no difference to a
window but for its random bytes. -/
theorem update_withRandom
    (masked : Masked (w.scheduler.machine.executed w.keypad.input (w.tasks message)))
    (random : RandomStream) (alike : other.unseeded = message.unseeded) :
    ∃ later, ((w.withRandom random).update other).window =
      (w.update message).window.withRandom later := by
  rcases eq_of_unseeded alike with rfl | ⟨file?, entropy, chance, rfl, rfl⟩
  · cases other with
    | tick now =>
      obtain ⟨later, stretched⟩ := Scheduler.advance_withRandom masked random
      have same : (w.withRandom random).stretchTo now = (w.stretchTo now).withRandom later :=
        stretched
      refine ⟨later, ?_⟩
      rw [update_tick, update_tick, same]
      rfl
    | keyPressed key | keyReleased key =>
      refine ⟨random, ?_⟩
      simp only [update, setKey]
      cases key.code? <;> rfl
    | fileWanted => exact ⟨random, rfl⟩
    | filePicked file? entropy =>
      cases file? with
      | none => exact ⟨random, rfl⟩
      | some file => exact w.load_withRandom random file entropy entropy
  · cases file? with
    | none => exact ⟨random, rfl⟩
    | some file => exact w.load_withRandom random file entropy chance

theorem shown_withRandom (masked : Masked (w.executed messages)) (random : RandomStream)
    (alike : others.map Message.unseeded = messages.map Message.unseeded) :
    (w.withRandom random).shown others = w.shown messages := by
  induction messages generalizing w random others with
  | nil =>
    obtain rfl := List.map_eq_nil_iff.mp alike
    rfl
  | cons message rest ih =>
    cases others with
    | nil => cases alike
    | cons other others =>
      obtain ⟨first, later⟩ := List.cons.inj alike
      obtain ⟨now, afterwards⟩ := masked_append.mp masked
      obtain ⟨next, updated⟩ := update_withRandom now random first
      rw [shown, shown, updated, ih afterwards next later]
      rfl

/-- What a program starts with is the same in any window as in a new one, but for its random bytes
and for the number of questions asked, which goes on and which nothing in a window tells. -/
theorem load_eq_load_initial (h : w.Reachable) {file : PickedFile} {rom : Rom}
    (read : file.contents = .ok rom) (fits : rom.size ≤ Rom.limit)
    (entropy first chance : ChaCha.Key) :
    (w.load file entropy).window =
      (((initial first).load file chance).window.withRandom { key := entropy }).askedBefore
        w.scheduler.machine.polled := by
  obtain ⟨memory, held, restarted⟩ := Scheduler.reset_of_le fits w.scheduler entropy
  obtain ⟨memory', held', started⟩ := Scheduler.reset_of_le fits (initial first).scheduler chance
  obtain rfl := Except.ok.inj (held.symm.trans held')
  rw [load_of_le read fits, load_of_le read fits, restarted, started, h.scheduler.settings_eq]
  rfl

/-- The random bytes of `loaded` are those of its own entropy. How often the keypad has been asked
goes on counting, and by `shown_askedBefore` that cannot be seen. -/
theorem picked_file_starts_over (h : w.Reachable) (file : PickedFile) (entropy : ChaCha.Key) :
    let loaded := (w.update (.filePicked (some file) entropy)).window
    (∀ e, file.contents = .error e → loaded = w) ∧
      (∀ rom, file.contents = .ok rom → 3584 < rom.size → loaded = { w with keypad := {} }) ∧
      ∀ rom, file.contents = .ok rom → rom.size ≤ 3584 → ∀ first chance,
        let anew := ((initial first).update (.filePicked (some file) chance)).window
        loaded = (anew.withRandom { key := entropy }).askedBefore w.scheduler.machine.polled ∧
          loaded.scheduler.state = .running ∧ loaded.scheduler.instructionDebt = 0 ∧
          loaded.scheduler.timerDebt = 0 ∧ loaded.keypad = {} ∧ loaded.picture = .blank ∧
          loaded.lastTick = none ∧
          ∀ messages others, others.map Message.unseeded = messages.map Message.unseeded →
            Masked (loaded.executed messages) → loaded.shown messages = anew.shown others := by
  intro loaded
  refine ⟨?_, ?_, ?_⟩
  · intro e unread
    exact load_of_error unread w entropy
  · intro rom read large
    exact load_of_lt read large w entropy
  · intro rom read fits first chance anew
    have started : loaded = _ := load_eq_load_initial h read fits entropy first chance
    have fresh : loaded = _ := load_of_le read fits w entropy
    obtain ⟨memory, -, restarted⟩ := Scheduler.reset_of_le fits w.scheduler entropy
    rw [restarted] at fresh
    refine ⟨started, ?_, ?_, ?_, ?_, ?_, ?_, ?_⟩
    · exact congrArg (·.scheduler.state) fresh
    · exact congrArg (·.scheduler.instructionDebt) fresh
    · exact congrArg (·.scheduler.timerDebt) fresh
    · exact congrArg (·.keypad) fresh
    · exact congrArg (·.picture) fresh
    · exact congrArg (·.lastTick) fresh
    · intro messages others alike masked
      have reseeded : loaded.withRandom anew.scheduler.machine.random =
          anew.askedBefore w.scheduler.machine.polled := by
        rw [started]
        rfl
      calc loaded.shown messages
        _ = (loaded.withRandom anew.scheduler.machine.random).shown others :=
          (shown_withRandom masked _ alike).symm
        _ = (anew.askedBefore w.scheduler.machine.polled).shown others := by rw [reseeded]
        _ = anew.shown others := anew.shown_askedBefore _ others

/-- The machine before has halted with time left to it, and a key is held. The program takes a
random byte without a use for it and draws a glyph. -/
theorem picked_file_starts_over_after_halt :
    let entropy : ChaCha.Key := .replicate 8 0
    let other : ChaCha.Key := .replicate 8 1
    let w := (initial entropy).follow
      [.filePicked (some ⟨"dash.ch8", .ok ⟨#[0xA0, 0x50, 0xD0, 0x01, 0x00, 0xEE]⟩⟩) entropy,
        .tick 5, .keyPressed (.character "q")]
    let file : PickedFile :=
      ⟨"glyph.ch8", .ok ⟨#[0xC0, 0x00, 0xA0, 0x50, 0xD0, 0x05, 0x12, 0x06]⟩⟩
    let loaded := (w.update (.filePicked (some file) entropy)).window
    let anew := ((initial other).update (.filePicked (some file) other)).window
    let messages : List Message := [.tick 7, .keyReleased (.character "q")]
    w.scheduler.state = .halted .stackUnderflow ∧ w.scheduler.instructionDebt = 12714287 ∧
      w.keypad ≠ {} ∧ loaded.scheduler.machine.random ≠ anew.scheduler.machine.random ∧
      loaded.keypad = {} ∧
      Masked (loaded.executed messages) ∧ loaded.shown messages = anew.shown messages ∧
      (loaded.follow messages).picture ≠ .blank := by
  intro entropy other w file loaded anew messages
  have h : w.Reachable := (Reachable.initial entropy).follow _
  have state : w.scheduler.state = .halted .stackUnderflow := by decide +kernel
  have debt : w.scheduler.instructionDebt = 12714287 := by decide +kernel
  have held : w.keypad ≠ {} := by decide +kernel
  have random : loaded.scheduler.machine.random ≠ anew.scheduler.machine.random := by
    decide +kernel
  have masked : Masked (loaded.executed messages) := by decide +kernel
  have drawn : (loaded.follow messages).picture ≠ .blank := by decide +kernel
  obtain ⟨-, -, starts⟩ := picked_file_starts_over h file entropy
  obtain ⟨-, -, -, -, keypad, -, -, seen⟩ := starts _ rfl (by decide) other other
  exact ⟨state, debt, held, random, keypad, masked, seen messages messages rfl masked, drawn⟩

end Window

end Chip8
