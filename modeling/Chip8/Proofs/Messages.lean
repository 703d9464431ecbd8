import Chip8.Proofs.Ledger
import Chip8.Proofs.Restart
import Chip8.Window

/-! What messages do to a window. A tick moves the machine, a file with a program that fits starts a
machine, and every other message leaves all but the keypad as it was. From a start on the machine
gets 17 ms for the first tick and the time since the one before for every other, as far as it is
made up for. -/

namespace Chip8

namespace Message

def starts : Message → Bool
  | .filePicked (some ⟨_, .ok rom⟩) _ => rom.size ≤ Rom.limit
  | _ => false

def instant? : Message → Option Nat
  | .tick now => some now
  | _ => none

end Message

namespace Scheduler

theorem reset_of_lt {rom : Rom} (h : Rom.limit < rom.size) (s : Scheduler)
    (entropy : ChaCha.Key) : s.reset rom entropy = .failed s (.romTooLarge rom.size Rom.limit) := by
  simp only [reset]
  rw [Machine.reset_of_lt h]
  rfl

/-- A program that fits is started on a machine that has nothing from before but its settings and
the count of its questions. -/
theorem reset_of_le {rom : Rom} (h : rom.size ≤ Rom.limit) (s : Scheduler)
    (entropy : ChaCha.Key) :
    ∃ memory, Memory.ofRom rom = .ok memory ∧ s.reset rom entropy =
      { after := fresh { Machine.blank s.machine.settings entropy with
          memory, polled := s.machine.polled }
        log := #[.reloaded rom.size, .restarted] } := by
  obtain ⟨memory, hm, -⟩ := Memory.ofRom_of_le h
  refine ⟨memory, hm, ?_⟩
  simp only [reset, Machine.reset]
  rw [hm]
  rfl

end Scheduler

namespace Window

variable {w : Window} {message : Message}

def follow (w : Window) (messages : List Message) : Window :=
  messages.foldl (fun w message => (w.update message).window) w

def tasks (w : Window) : Message → List Task
  | .tick now => (w.stretchTo now).performed.toList
  | _ => []

/-- The tasks of a list of messages, each with the keys as they were when it was performed. -/
def performed (w : Window) : List Message → List (Input × Task)
  | [] => []
  | message :: rest =>
    (w.tasks message).map (w.keypad.input, ·) ++ (w.update message).window.performed rest

inductive Reachable : Window → Prop where
  | initial (entropy : ChaCha.Key) : Reachable (initial entropy)
  | update {w : Window} (message : Message) (h : Reachable w) :
      Reachable (w.update message).window

theorem follow_append (w : Window) (first second : List Message) :
    w.follow (first ++ second) = (w.follow first).follow second := List.foldl_append

theorem follow_concat (w : Window) (messages : List Message) (message : Message) :
    w.follow (messages ++ [message]) = ((w.follow messages).update message).window := by
  rw [follow_append]
  rfl

theorem Reachable.follow (h : w.Reachable) (messages : List Message) :
    (w.follow messages).Reachable := by
  induction messages generalizing w with
  | nil => exact h
  | cons message rest ih => exact ih (.update message h)

theorem update_tick (w : Window) (now : Nat) :
    (w.update (.tick now)).window =
      { scheduler := (w.stretchTo now).scheduler
        keypad := w.keypad
        picture := (w.stretchTo now).scheduler.screen
        lastTick := some now } := rfl

theorem load_of_error {file : PickedFile} {e : FileError} (unread : file.contents = .error e)
    (w : Window) (entropy : ChaCha.Key) : (w.load file entropy).window = w := by
  simp only [load, unread]

theorem load_of_lt {file : PickedFile} {rom : Rom} (read : file.contents = .ok rom)
    (large : Rom.limit < rom.size) (w : Window) (entropy : ChaCha.Key) :
    (w.load file entropy).window = { w with keypad := w.keypad.releaseAll } := by
  have refused := Scheduler.reset_of_lt large w.scheduler entropy
  simp only [load, read, refused]
  rfl

theorem load_of_le {file : PickedFile} {rom : Rom} (read : file.contents = .ok rom)
    (fits : rom.size ≤ Rom.limit) (w : Window) (entropy : ChaCha.Key) :
    (w.load file entropy).window =
      { scheduler := (w.scheduler.reset rom entropy).after
        keypad := w.keypad.releaseAll
        picture := .blank
        lastTick := none } := by
  obtain ⟨memory, -, restarted⟩ := Scheduler.reset_of_le fits w.scheduler entropy
  simp only [load, read, restarted]
  rfl

theorem exists_of_starts (h : message.starts = true) :
    ∃ file rom entropy, message = .filePicked (some file) entropy ∧ file.contents = .ok rom ∧
      rom.size ≤ Rom.limit := by
  cases message with
  | filePicked file? entropy =>
    cases file? with
    | none => cases h
    | some file =>
      obtain ⟨path, contents⟩ := file
      cases contents with
      | error e => cases h
      | ok rom => exact ⟨⟨path, .ok rom⟩, rom, entropy, rfl, rfl, of_decide_eq_true h⟩
  | _ => cases h

/-- A message that starts nothing is a tick, or it does nothing but to the keypad. -/
theorem quiet_cases (quiet : message.starts = false) (w : Window) :
    (∃ now, message = .tick now) ∨
      message.instant? = none ∧ w.tasks message = [] ∧
        ∃ keypad, (w.update message).window = { w with keypad } := by
  cases message with
  | tick now => exact Or.inl ⟨now, rfl⟩
  | keyPressed key | keyReleased key =>
    refine Or.inr ⟨rfl, rfl, ?_⟩
    simp only [Window.update, setKey]
    split
    · exact ⟨_, rfl⟩
    · exact ⟨w.keypad, rfl⟩
  | fileWanted => exact Or.inr ⟨rfl, rfl, w.keypad, rfl⟩
  | filePicked file? entropy =>
    cases file? with
    | none => exact Or.inr ⟨rfl, rfl, w.keypad, rfl⟩
    | some file =>
      refine Or.inr ⟨rfl, rfl, ?_⟩
      cases contents : file.contents with
      | error e => exact ⟨w.keypad, load_of_error contents w entropy⟩
      | ok rom =>
        obtain ⟨path, _⟩ := file
        obtain rfl := contents
        have large : Rom.limit < rom.size := Nat.not_le.mp (of_decide_eq_false quiet)
        exact ⟨_, load_of_lt rfl large w entropy⟩

theorem update_of_starts (h : message.starts = true) (w : Window) :
    ∃ rom entropy, (w.scheduler.reset rom entropy).fault = none ∧
      (w.update message).window =
        { scheduler := (w.scheduler.reset rom entropy).after
          keypad := w.keypad.releaseAll
          picture := .blank
          lastTick := none } := by
  obtain ⟨file, rom, entropy, rfl, read, fits⟩ := exists_of_starts h
  obtain ⟨memory, -, restarted⟩ := Scheduler.reset_of_le fits w.scheduler entropy
  exact ⟨rom, entropy, by rw [restarted], load_of_le read fits w entropy⟩

theorem state_update_of_starts (starts : message.starts = true) (w : Window) :
    (w.update message).window.scheduler.state = .running := by
  obtain ⟨rom, entropy, restarted, same⟩ := update_of_starts starts w
  rw [same]
  exact Scheduler.state_reset_of_ok restarted

theorem Reachable.scheduler (h : w.Reachable) : w.scheduler.Reachable {} := by
  induction h with
  | initial entropy => exact .operate .silent 0 .stop (.fresh (.blank entropy))
  | @update w message _ ih =>
    cases starts : message.starts with
    | true =>
      obtain ⟨rom, entropy, -, same⟩ := update_of_starts starts w
      rw [same]
      exact .operate .silent 0 (.reset rom entropy) ih
    | false =>
      rcases quiet_cases starts w with ⟨now, rfl⟩ | ⟨-, -, keypad, same⟩
      · exact .operate w.keypad.input 0 (.advance (w.elapsed now)) ih
      · rw [same]
        exact ih

theorem Reachable.periods (h : w.Reachable) :
    w.scheduler.instructionPeriod = 1428571 ∧ w.scheduler.timerPeriod = 16666666 := by
  rw [Scheduler.instructionPeriod, Scheduler.timerPeriod, h.scheduler.settings_eq]
  decide

theorem Reachable.paced (h : w.Reachable) : w.scheduler.Paced := by
  obtain ⟨hi, ht⟩ := h.periods
  constructor
  · rw [hi]
    decide
  · rw [ht]
    decide

theorem stretchTo_of_idle (idle : w.scheduler.state ≠ .running) (now : Nat) :
    (w.stretchTo now).scheduler = w.scheduler ∧ (w.stretchTo now).performed = #[] := by
  simp only [stretchTo]
  cases state : w.scheduler.state with
  | running => exact absurd state idle
  | stopped =>
    rw [Scheduler.advance_of_stopped state]
    exact ⟨rfl, rfl⟩
  | halted fault =>
    rw [Scheduler.advance_of_halted state]
    exact ⟨rfl, rfl⟩

theorem update_of_idle (idle : w.scheduler.state ≠ .running) (quiet : message.starts = false) :
    (w.update message).window.scheduler = w.scheduler ∧ w.tasks message = [] := by
  rcases quiet_cases quiet w with ⟨now, rfl⟩ | ⟨-, unworked, keypad, same⟩
  · obtain ⟨kept, nothing⟩ := stretchTo_of_idle idle now
    exact ⟨kept, congrArg Array.toList nothing⟩
  · rw [same]
    exact ⟨rfl, unworked⟩

theorem follow_of_idle (idle : w.scheduler.state ≠ .running) {messages : List Message}
    (quiet : ∀ message ∈ messages, message.starts = false) :
    (w.follow messages).scheduler = w.scheduler ∧ w.performed messages = [] := by
  induction messages generalizing w with
  | nil => exact ⟨rfl, rfl⟩
  | cons message rest ih =>
    obtain ⟨first, later⟩ := List.forall_mem_cons.mp quiet
    obtain ⟨kept, nothing⟩ := update_of_idle idle first
    obtain ⟨still, rested⟩ := ih (w := (w.update message).window) (by rwa [kept]) later
    refine ⟨still.trans kept, ?_⟩
    rw [performed, nothing, rested]
    rfl

variable {l : Ledger}

def timeSince (last? : Option Nat) : List Nat → Nat
  | [] => 0
  | now :: rest =>
    min (Time.milliseconds 250) (last?.elim tickInterval (now - ·)) + timeSince (some now) rest

/-- The time that ticks at these instants stand for after a start. A clock that goes back adds
nothing. -/
def timeOf : List Nat → Nat
  | [] => 0
  | first :: rest =>
    17000000 + (List.zipWith (fun last now => min 250000000 (now - last)) (first :: rest) rest).sum

theorem timeSince_some (last : Nat) (instants : List Nat) :
    timeSince (some last) instants =
      (List.zipWith (fun last now => min 250000000 (now - last)) (last :: instants)
        instants).sum := by
  induction instants generalizing last with
  | nil => rfl
  | cons now rest ih =>
    have limit : Time.milliseconds 250 = 250000000 := by decide
    rw [timeSince, ih, List.zipWith_cons_cons, List.sum_cons, limit, Option.elim_some]

theorem timeSince_none (instants : List Nat) : timeSince none instants = timeOf instants := by
  cases instants with
  | nil => rfl
  | cons first rest =>
    have interval : min (Time.milliseconds 250) tickInterval = 17000000 := by decide
    rw [timeSince, timeSince_some, Option.elim_none, interval, timeOf]

theorem elapsed_eq (w : Window) (now : Nat) :
    w.elapsed now = w.lastTick.elim tickInterval (now - ·) := by
  simp only [elapsed]
  cases w.lastTick with
  | none => rw [Option.elim_none]
  | some last => rw [Option.elim_some]

theorem Reachable.accepted_elapsed (h : w.Reachable) (now : Nat) :
    w.scheduler.accepted (w.elapsed now) =
      min (Time.milliseconds 250) (w.lastTick.elim tickInterval (now - ·)) := by
  rw [Scheduler.accepted, h.scheduler.settings_eq, Nat.min_comm, elapsed_eq]

/-- What the catch-up leaves of a tick always fits on the debts. -/
theorem Reachable.fits (h : w.Reachable) (running : w.scheduler.state = .running)
    (elapsed : Nat) : w.scheduler.Fits elapsed := by
  apply (h.scheduler.settled h.paced).fits running
  have hi : w.scheduler.instructionPeriod ≤ Time.second := Time.period_le _
  have ht : w.scheduler.timerPeriod ≤ Time.second := Time.period_le _
  rw [h.scheduler.settings_eq]
  simp only [Time.longest, Time.second, Time.milliseconds] at hi ht ⊢
  omega

/-- While no fault ends it, a running machine is given the time of all ticks up to the next start,
and the other messages neither add to it nor take from it. -/
theorem kept_follow (h : w.Reachable) (kept : w.scheduler.Kept {} l)
    (running : w.scheduler.state = .running) {messages : List Message}
    (quiet : ∀ message ∈ messages, message.starts = false)
    (unfaulted : ∀ fault, (w.follow messages).scheduler.state ≠ .halted fault) :
    (w.follow messages).scheduler.Kept {}
      (l.spend (timeSince w.lastTick (messages.filterMap Message.instant?))
        (w.performed messages)) := by
  induction messages generalizing w l with
  | nil =>
    rw [performed, List.filterMap_nil, timeSince, Ledger.spend_zero_nil]
    exact kept
  | cons message rest ih =>
    obtain ⟨first, later⟩ := List.forall_mem_cons.mp quiet
    rcases quiet_cases first w with ⟨now, rfl⟩ | ⟨timeless, unworked, keypad, same⟩
    · have awake : (w.stretchTo now).scheduler.state = .running := by
        cases state : (w.stretchTo now).scheduler.state with
        | running => rfl
        | stopped =>
          exact absurd state (Scheduler.ne_stopped_advance h.paced (by simp [running]) _ _ _)
        | halted fault =>
          have idle : (w.update (.tick now)).window.scheduler.state ≠ .running := by
            simp [update_tick, state]
          obtain ⟨still, -⟩ := follow_of_idle idle later
          exact absurd ((congrArg Scheduler.state still).trans state) (unfaulted fault)
      have entered : (w.stretchTo now).scheduler.Kept {}
          (l.spend (w.scheduler.accepted (w.elapsed now))
            ((w.tasks (.tick now)).map (w.keypad.input, ·))) := by
        rw [← Scheduler.taken_of_fits running (h.fits running (w.elapsed now))]
        have advanced := kept.operate w.keypad.input 0 (.advance (w.elapsed now))
        rwa [Ledger.operate_advance] at advanced
      have rested := ih (w := (w.update (.tick now)).window) (.update _ h) entered awake later
        unfaulted
      rw [Ledger.spend_spend, h.accepted_elapsed] at rested
      exact rested
    · have rested := ih (w := (w.update message).window) (.update message h) (by rwa [same])
        (by rwa [same]) later unfaulted
      simp only [List.filterMap_cons, timeless, performed, unworked, List.map_nil,
        List.nil_append]
      rwa [show (w.update message).window.lastTick = w.lastTick by rw [same]] at rested

theorem kept_update_of_starts (h : w.Reachable) {message : Message}
    (starts : message.starts = true) :
    (w.update message).window.scheduler.Kept {}
      { start := (w.update message).window.scheduler.machine } := by
  obtain ⟨l, kept⟩ := h.scheduler.kept
  obtain ⟨rom, entropy, restarted, same⟩ := update_of_starts starts w
  have anew := kept.operate .silent 0 (.reset rom entropy)
  rw [same]
  rwa [Ledger.operate, if_pos restarted] at anew

theorem quotient_of_sum {time count period debt : Nat} (sum : time = count * period + debt)
    (short : debt < period) : count = time / period := by
  apply Eq.symm
  rw [Nat.div_eq_iff (by omega)]
  omega

theorem performed_by_time (h : w.Reachable) {start : Message} (starts : start.starts = true)
    (messages : List Message) (quiet : ∀ message ∈ messages, message.starts = false)
    (unfaulted : ∀ fault,
      ((w.update start).window.follow messages).scheduler.state ≠ .halted fault) :
    let started := (w.update start).window
    let work := started.performed messages
    let time := timeOf (messages.filterMap Message.instant?)
    (started.follow messages).scheduler.machine = started.scheduler.machine.followEach work ∧
      (work.map Prod.snd).count .cycle = time / 1428571 ∧
      (work.map Prod.snd).count .tick = time / 16666666 := by
  intro started work time
  have reached : started.Reachable := .update start h
  have later := reached.follow messages
  obtain ⟨rom, entropy, -, same⟩ := update_of_starts starts w
  have running := state_update_of_starts starts w
  have kept := kept_follow reached (kept_update_of_starts h starts) running quiet unfaulted
  rw [show started.lastTick = none by simp only [started, same], timeSince_none] at kept
  obtain ⟨machine, instructions, timers⟩ := kept.balanced
  obtain ⟨shortInstructions, shortTimers⟩ := (later.scheduler.settled later.paced).debts unfaulted
  obtain ⟨hi, ht⟩ := later.periods
  rw [hi] at instructions shortInstructions
  rw [ht] at timers shortTimers
  rw [Ledger.machine_spend] at machine
  rw [Ledger.time_spend, Ledger.cycles_spend] at instructions
  rw [Ledger.time_spend, Ledger.ticks_spend] at timers
  refine ⟨machine, quotient_of_sum ?_ shortInstructions, quotient_of_sum ?_ shortTimers⟩
  · simpa [Ledger.cycles, Ledger.tasks] using instructions
  · simpa [Ledger.ticks, Ledger.tasks] using timers

/-- The clock goes back by a second between the first two ticks, and then on by three milliseconds.
The tick before the start and the files that cannot be started leave no trace. -/
theorem performed_by_time_clock_back :
    let entropy : ChaCha.Key := .replicate 8 0
    let w := ((initial entropy).update (.tick 9)).window
    let start : Message := .filePicked (some ⟨"spin.ch8", .ok ⟨#[0x12, 0x00]⟩⟩) entropy
    let messages : List Message :=
      [.tick 5000000000, .filePicked (some ⟨"lost.ch8", .error .notFound⟩) entropy,
        .keyPressed (.character "q"), .tick 4000000000,
        .filePicked (some ⟨"large.ch8", .ok ⟨.replicate 3585 0⟩⟩) entropy, .fileWanted,
        .filePicked none entropy, .tick 4003000000]
    let work := (w.update start).window.performed messages
    start.starts = true ∧ (∀ message ∈ messages, message.starts = false) ∧
      timeOf (messages.filterMap Message.instant?) = 20000000 ∧
      ((w.update start).window.follow messages).scheduler.machine =
        (w.update start).window.scheduler.machine.followEach work ∧
      (work.map Prod.snd).count .cycle = 14 ∧ (work.map Prod.snd).count .tick = 1 := by
  intro entropy w start messages work
  have h : w.Reachable := .update (.tick 9) (.initial entropy)
  have quiet : ∀ message ∈ messages, message.starts = false := by decide +kernel
  have running : ((w.update start).window.follow messages).scheduler.state = .running := by
    decide +kernel
  have time : timeOf (messages.filterMap Message.instant?) = 20000000 := by decide
  have starts : start.starts = true := by decide
  obtain ⟨machine, cycles, ticks⟩ :=
    performed_by_time h starts messages quiet (by simp [running])
  rw [time] at cycles ticks
  exact ⟨starts, quiet, time, machine, cycles, ticks⟩

end Window

end Chip8
