import Chip8.Proofs.Course
import Chip8.Outcome.Lemmas
import Chip8.Proofs.Halting

/-! The log tells the run. What a scheduler writes to the log can be read off the cycles that it has
performed, one after the other, so from the log one knows which words were fetched where, which of
them were unknown, and with which fault the run came to its end. -/

namespace Chip8

theorem Level.ne_of_admits {threshold level other : Level} (h : threshold.admits level = true)
    (h' : threshold.admits other = false) : other ≠ level := by
  rintro rfl
  cases h'.symm.trans h

theorem LogEntry.filter_map_of_level {α : Type} {f : α → LogEntry} {level : Level}
    (h : ∀ a, (f a).level = level) (wanted : Level) (as : List α) :
    (as.map f).filter (·.level = wanted) = if level = wanted then as.map f else [] := by
  split
  · rename_i same
    exact List.filter_eq_self.mpr (by simp [h, same])
  · rename_i other
    exact List.filter_eq_nil_iff.mpr (by simp [h, other])

def RunState.fault? : RunState → Option Fault
  | halted fault => some fault
  | _ => none

def Fault.report (fault : Fault) : String :=
  "ERROR halting: " ++ fault.opening ++ fault.details

namespace Machine

variable {α β : Type} {m : Machine} {input : Input} {report : Machine → List α} {fault : Fault}

def unknown? (m : Machine) : Option (UInt16 × UInt16) :=
  match m.fetch with
  | .ok word => if (Instruction.ofWord word).toOption.isNone then some (word, m.pc) else none
  | .error _ => none

def fatal? (m : Machine) (input : Input) : Option Fault :=
  (m.step input).fault.filter Fault.isFatal

def passedOver : UInt16 × UInt16 → LogEntry
  | (word, address) => .continued (.unknownInstruction word) (address + 2)

def entries (m : Machine) (input : Input) : List LogEntry :=
  m.fetch.toOption.toList.map (.fetched · m.pc) ++ m.unknown?.toList.map passedOver ++
    (m.fatal? input).toList.map .halted

def warning : UInt16 × UInt16 → String
  | (word, address) =>
    "WARN unknown instruction: 0x" ++ fourDigits word ++ ", continuing at 0x" ++
      threeDigits (address + 2)

def lines (m : Machine) (input : Input) : List String :=
  m.fetch.toOption.toList.map
      (fun word => "TRACE " ++ fourDigits word ++ " at " ++ fourDigits m.pc) ++
    m.unknown?.toList.map warning ++ (m.fatal? input).toList.map Fault.report

/-- What there is to report of the cycles among some tasks. -/
def overCycles (m : Machine) (report : Machine → List α) (input : Input) : List Task → List α
  | [] => []
  | .tick :: rest => m.tick.overCycles report input rest
  | .cycle :: rest => report m ++ (m.step input).after.overCycles report input rest

def chronicle (m : Machine) (input : Input) (tasks : List Task) : List LogEntry :=
  m.overCycles (·.entries input) input tasks

theorem overCycles_append (m : Machine) (report : Machine → List α) (input : Input)
    (before after : List Task) :
    m.overCycles report input (before ++ after) =
      m.overCycles report input before ++
        (m.follow input before).overCycles report input after := by
  induction before generalizing m with
  | nil => rfl
  | cons task rest ih =>
    cases task with
    | tick => exact ih m.tick
    | cycle =>
      simp only [List.cons_append, overCycles, ih, List.append_assoc]
      rfl

theorem overCycles_concat (m : Machine) (report : Machine → List α) (input : Input)
    (before : List Task) :
    m.overCycles report input (before ++ [.cycle]) =
      m.overCycles report input before ++ report (m.follow input before) := by
  rw [overCycles_append]
  simp only [overCycles, List.append_nil]

theorem filter_overCycles (p : α → Bool) (m : Machine) (report : Machine → List α) (input : Input)
    (tasks : List Task) :
    (m.overCycles report input tasks).filter p =
      m.overCycles (fun n => (report n).filter p) input tasks := by
  induction tasks generalizing m with
  | nil => rfl
  | cons task rest ih => cases task <;> simp [overCycles, ih]

theorem map_overCycles (f : α → β) (m : Machine) (report : Machine → List α) (input : Input)
    (tasks : List Task) :
    (m.overCycles report input tasks).map f =
      m.overCycles (fun n => (report n).map f) input tasks := by
  induction tasks generalizing m with
  | nil => rfl
  | cons task rest ih => cases task <;> simp [overCycles, ih]

def unknowns (m : Machine) (input : Input) (tasks : List Task) : List (UInt16 × UInt16) :=
  m.overCycles (·.unknown?.toList) input tasks

def failures (m : Machine) (input : Input) (tasks : List Task) : List Fault :=
  m.overCycles (fun n => (n.fatal? input).toList) input tasks

theorem filter_entries (m : Machine) (input : Input) (level : Level) :
    (m.entries input).filter (·.level = level) =
      (if Level.trace = level then m.fetch.toOption.toList.map (.fetched · m.pc) else []) ++
        (if Level.warn = level then m.unknown?.toList.map passedOver else []) ++
          if Level.error = level then (m.fatal? input).toList.map .halted else [] := by
  have traced (word : UInt16) : (LogEntry.fetched word m.pc).level = .trace := rfl
  have warned (unknown : UInt16 × UInt16) : (passedOver unknown).level = .warn := rfl
  have failed (fault : Fault) : (LogEntry.halted fault).level = .error := rfl
  rw [entries, List.filter_append, List.filter_append, LogEntry.filter_map_of_level traced,
    LogEntry.filter_map_of_level warned, LogEntry.filter_map_of_level failed]

theorem warnings_chronicle (m : Machine) (input : Input) (tasks : List Task) :
    (m.chronicle input tasks).filter (·.level = .warn) =
      (m.unknowns input tasks).map passedOver := by
  rw [chronicle, unknowns, filter_overCycles, map_overCycles]
  simp [filter_entries]

theorem errors_chronicle (m : Machine) (input : Input) (tasks : List Task) :
    (m.chronicle input tasks).filter (·.level = .error) =
      (m.failures input tasks).map .halted := by
  rw [chronicle, failures, filter_overCycles, map_overCycles]
  simp [filter_entries]

theorem line_passedOver (unknown : UInt16 × UInt16) : (passedOver unknown).line = warning unknown :=
  LogEntry.line_continued unknown.1 (unknown.2 + 2)

theorem map_line_chronicle (m : Machine) (input : Input) (tasks : List Task) :
    (m.chronicle input tasks).map LogEntry.line = m.overCycles (·.lines input) input tasks := by
  rw [chronicle, map_overCycles]
  congr 1
  funext n
  have fetched : LogEntry.line ∘ (LogEntry.fetched · n.pc) =
      fun word => "TRACE " ++ fourDigits word ++ " at " ++ fourDigits n.pc :=
    funext fun word => LogEntry.line_fetched word n.pc
  have passed : LogEntry.line ∘ passedOver = warning := funext line_passedOver
  have halted : LogEntry.line ∘ LogEntry.halted = Fault.report := funext LogEntry.line_halted
  simp only [entries, lines, List.map_append, List.map_map, fetched, passed, halted]

theorem fatal?_eq_some_iff :
    m.fatal? input = some fault ↔ (m.step input).fault = some fault ∧ fault.isFatal = true :=
  Option.filter_eq_some_iff

theorem isFatal_of_fetch_error (h : m.fetch = .error fault) : fault.isFatal = true := by
  by_cases behind : 0xFFF ≤ m.pc.toNat
  · rw [fetch_of_le behind] at h
    cases h
    rfl
  · obtain ⟨word, fetched⟩ := fetch_of_lt (Nat.not_le.mp behind)
    cases fetched.symm.trans h

theorem isFatal_of_refusal? {i : Instruction} (h : m.refusal? i = some fault) :
    fault.isFatal = true := by
  rcases refusal?_eq_some_iff.mp h with ⟨-, -, rfl⟩ | ⟨-, -, rfl⟩ | ⟨n, -, -, rfl⟩
  · rfl
  · rfl
  · rfl

end Machine

namespace Scheduler

variable {s t : Scheduler} {input : Input} {patience : Nat}

theorem log_cycle (s : Scheduler) (input : Input) :
    (s.cycle input).log.toList = s.machine.entries input := by
  cases fetched : s.machine.fetch with
  | error fault =>
    have fatal := Machine.isFatal_of_fetch_error fetched
    simp [cycle, Machine.step_of_fetch_error fetched, afterFault, fatal, Machine.entries,
      Machine.unknown?, Machine.fatal?, fetched, Except.toOption, Option.filter]
  | ok word =>
    cases decoded : Instruction.ofWord word with
    | error fault =>
      obtain rfl := Instruction.fault_ofWord decoded
      simp [cycle, Machine.step_of_unknown fetched decoded, afterFault, Fault.isFatal,
        Machine.entries, Machine.unknown?, Machine.fatal?, Machine.passedOver, fetched, decoded,
        Except.toOption, Machine.pastWord]
    | ok i =>
      have step := Machine.step_of_known fetched decoded input
      have refusal := s.machine.pastWord.fault_execute input i
      cases refused : s.machine.pastWord.refusal? i with
      | none =>
        simp [cycle, step, refusal, refused, Machine.entries, Machine.unknown?, Machine.fatal?,
          fetched, decoded, Except.toOption]
      | some fault =>
        have fatal := Machine.isFatal_of_refusal? refused
        simp [cycle, step, refusal, refused, afterFault, fatal, Machine.entries,
          Machine.unknown?, Machine.fatal?, fetched, decoded, Except.toOption, Option.filter]

/-- The fault that a scheduler was halted with between two moments. -/
def turn? (s t : Scheduler) : Option Fault :=
  match s.state.fault? with
  | some _ => none
  | none => t.state.fault?

theorem turn?_of_same (h : t.state.fault? = s.state.fault?) : (s.turn? t).toList = [] := by
  simp only [turn?, h]
  cases s.state.fault? <;> rfl

theorem turn?_of_running (running : s.state = .running) (t : Scheduler) :
    s.turn? t = t.state.fault? := by
  rw [turn?, running]
  rfl

theorem fault?_stop (s : Scheduler) : s.stop.state.fault? = s.state.fault? := by
  simp only [stop]
  cases state : s.state <;> simp [state, RunState.fault?]

theorem fault?_resume (s : Scheduler) : s.resume.state.fault? = s.state.fault? := by
  simp only [resume]
  cases state : s.state <;> simp [state, RunState.fault?]

theorem fault?_perform {task : Task} (due : s.due = some task) (input : Input) :
    (s.perform input task).after.state.fault?.toList = s.machine.failures input [task] := by
  have running := running_of_due due
  cases task with
  | tick =>
    change s.state.fault?.toList = []
    rw [running]
    rfl
  | cycle =>
    simp only [Machine.failures, Machine.overCycles, List.append_nil]
    cases fatal : s.machine.fatal? input with
    | some fault =>
      obtain ⟨faulted, fatal⟩ := Machine.fatal?_eq_some_iff.mp fatal
      rw [state_perform_of_fatal faulted fatal]
      rfl
    | none =>
      have survived (fault : Fault) (faulted : (s.machine.step input).fault = some fault) :
          fault.isFatal = false := by
        by_contra fatal'
        have found := Machine.fatal?_eq_some_iff.mpr ⟨faulted, Bool.not_eq_false _ ▸ fatal'⟩
        cases fatal.symm.trans found
      have kept : (s.perform input .cycle).after.state = s.state :=
        state_perform_of_survived survived
      rw [kept, running]
      rfl

/-- No event wakes up a halted scheduler, and only a task halts one. -/
theorem turn?_undergo {event : Event} (admitted : s.Admits event) (input : Input) :
    (s.turn? (s.undergo input event).after).toList =
      s.machine.failures input event.task?.toList := by
  cases event with
  | performed task =>
    rw [turn?_of_running (running_of_due admitted)]
    exact fault?_perform admitted input
  | owed time => exact turn?_of_same rfl
  | stopped | signalled => exact turn?_of_same s.fault?_stop
  | resumed => exact turn?_of_same s.fault?_resume

theorem fault?_undergo {event : Event} {fault : Fault} (halted : s.state.fault? = some fault)
    (admitted : s.Admits event) (input : Input) :
    (s.undergo input event).after.state.fault? = some fault := by
  cases event with
  | performed task =>
    rw [running_of_due admitted] at halted
    cases halted
  | owed time => exact halted
  | stopped | signalled => exact s.fault?_stop.trans halted
  | resumed => exact s.fault?_resume.trans halted

theorem Trace.fault?_kept {events : List Event} {log : List LogEntry}
    (h : Trace input s t events log) {fault : Fault} (halted : s.state.fault? = some fault) :
    t.state.fault? = some fault := by
  induction h with
  | start => exact halted
  | next event _ admitted ih => exact fault?_undergo ih admitted input

/-- Between two moments a scheduler is halted once at most. -/
theorem turn?_trans {u : Scheduler}
    (first : ∀ fault, s.state.fault? = some fault → t.state.fault? = some fault)
    (second : ∀ fault, t.state.fault? = some fault → u.state.fault? = some fault) :
    (s.turn? u).toList = (s.turn? t).toList ++ (t.turn? u).toList := by
  unfold turn?
  cases before : s.state.fault? with
  | some fault => simp [first fault before]
  | none =>
    cases between : t.state.fault? with
    | some fault => simp [second fault between]
    | none => rfl

theorem Trace.failures {events : List Event} {log : List LogEntry}
    (h : Trace input s t events log) :
    s.machine.failures input (events.filterMap Event.task?) = (s.turn? t).toList := by
  induction h with
  | start => exact (turn?_of_same rfl).symm
  | next event before admitted ih =>
    rw [turn?_trans (fun _ => before.fault?_kept)
      (fun _ halted => fault?_undergo halted admitted input), turn?_undergo admitted, ← ih,
      List.filterMap_append, Machine.failures, Machine.overCycles_append, ← before.machine]
    rfl

/-- Only tasks have lines, but for the one that tells of the stop signal. -/
theorem log_undergo (s : Scheduler) (input : Input) {event : Event} {p : LogEntry → Bool}
    (unsaid : event = .signalled → p .stopRequested = false) :
    (s.undergo input event).log.toList.filter p =
      (s.machine.chronicle input event.task?.toList).filter p := by
  cases event with
  | performed task =>
    cases task with
    | tick => rfl
    | cycle =>
      simp only [Event.task?, Option.toList, Machine.chronicle, Machine.overCycles,
        List.append_nil, ← log_cycle]
      rfl
  | signalled =>
    change [LogEntry.stopRequested].filter p = []
    simp [unsaid]
  | owed | stopped | resumed => rfl

theorem Trace.log {events : List Event} {log : List LogEntry} (h : Trace input s t events log)
    {p : LogEntry → Bool} (unsaid : .signalled ∈ events → p .stopRequested = false) :
    log.filter p =
      (s.machine.chronicle input (events.filterMap Event.task?)).filter p := by
  induction h with
  | start => rfl
  | @next t _ _ event before _ ih =>
    have last := t.log_undergo input fun (said : event = .signalled) =>
      unsaid (List.mem_append_right _ (List.mem_singleton.mpr said.symm))
    have earlier := ih fun said => unsaid (List.mem_append_left _ said)
    rw [List.filter_append, earlier, last, List.filterMap_append, Machine.chronicle,
      Machine.chronicle, Machine.chronicle, Machine.overCycles_append, List.filter_append,
      ← before.machine]
    rfl

theorem log_advance (s : Scheduler) (input : Input) (elapsed patience : Nat) :
    (s.advance input elapsed patience).log.toList =
      s.machine.chronicle input (s.advance input elapsed patience).performed.toList := by
  have unsaid : Event.signalled ∉ s.lapse input patience elapsed := by simp [lapse]
  have same := (s.trace_advance input elapsed patience).log (p := fun _ => true)
    fun said => absurd said unsaid
  rwa [List.filter_eq_self.mpr fun _ _ => rfl, List.filter_eq_self.mpr fun _ _ => rfl,
    filterMap_task?_lapse] at same

theorem failures_operate (s : Scheduler) (input : Input) (patience : Nat)
    (operation : Operation) :
    s.machine.failures input (s.tasks input patience operation) =
      (s.turn? (s.operate input patience operation).scheduler).toList := by
  cases operation with
  | reset rom entropy =>
    change [] = (s.turn? (s.reset rom entropy).after).toList
    by_cases restarted : (s.reset rom entropy).fault = none
    · rw [turn?, state_reset_of_ok restarted]
      cases s.state.fault? <;> rfl
    · rw [after_reset_of_refused restarted, turn?_of_same rfl]
  | machine command => exact (turn?_of_same rfl).symm
  | advance | stop | resume | run => exact (s.trace_operate input patience rfl).failures

/-- Warnings and errors come from the cycles that the scheduler performs and from nothing else: what
is done to its machine past it is not as urgent. -/
theorem log_operate {level : Level} (s : Scheduler) (urgent : Level.warn.admits level = true)
    (input : Input) (patience : Nat) (operation : Operation) :
    (s.operate input patience operation).log.toList.filter (·.level = level) =
      (s.machine.chronicle input (s.tasks input patience operation)).filter
        (·.level = level) := by
  have no_info := Level.ne_of_admits urgent (rfl : Level.warn.admits .info = false)
  have no_debug := Level.ne_of_admits urgent (rfl : Level.warn.admits .debug = false)
  have no_trace := Level.ne_of_admits urgent (rfl : Level.warn.admits .trace = false)
  have unworked : s.machine.chronicle input [] = [] := rfl
  cases operation with
  | advance | stop | resume | run =>
    apply (s.trace_operate input patience rfl).log
    exact fun _ => decide_eq_false no_debug
  | reset rom entropy =>
    simp only [operate, reset, Machine.reset, tasks, events, List.filterMap_nil, unworked]
    cases Memory.ofRom rom with
    | ok memory => simp [LogEntry.level, no_info]
    | error fault => rfl
  | machine command =>
    simp only [operate, tasks, events, List.filterMap_nil, unworked]
    cases command with
    | tick => rfl
    | step =>
      simp only [Machine.obey, Machine.step]
      split
      · rfl
      · split <;> simp [LogEntry.level, no_trace]
    | reset rom entropy =>
      simp only [Machine.obey, Machine.reset]
      cases Memory.ofRom rom with
      | ok memory => simp [LogEntry.level, no_info]
      | error fault => rfl

def turns (s : Scheduler) (input : Input) (patience : Nat) : List Operation → List Fault
  | [] => []
  | operation :: rest =>
    let after := (s.operate input patience operation).scheduler
    (s.turn? after).toList ++ after.turns input patience rest

def unknowns (s : Scheduler) (input : Input) (patience : Nat) :
    List Operation → List (UInt16 × UInt16)
  | [] => []
  | operation :: rest =>
    s.machine.unknowns input (s.tasks input patience operation) ++
      (s.operate input patience operation).scheduler.unknowns input patience rest

def logged (s : Scheduler) (input : Input) (patience : Nat) (operations : List Operation) :
    List LogEntry :=
  (s.answers input patience operations).flatMap (·.log.toList)

theorem errors_logged (s : Scheduler) (input : Input) (patience : Nat)
    (operations : List Operation) :
    (s.logged input patience operations).filter (·.level = .error) =
      (s.turns input patience operations).map .halted := by
  induction operations generalizing s with
  | nil => rfl
  | cons operation rest ih =>
    have first := s.log_operate (rfl : Level.warn.admits .error = true) input patience operation
    rw [Machine.errors_chronicle, failures_operate] at first
    simp only [logged] at ih
    simp only [logged, answers, List.flatMap_cons, List.filter_append, first, ih, turns,
      List.map_append]

theorem warnings_logged (s : Scheduler) (input : Input) (patience : Nat)
    (operations : List Operation) :
    (s.logged input patience operations).filter (·.level = .warn) =
      (s.unknowns input patience operations).map Machine.passedOver := by
  induction operations generalizing s with
  | nil => rfl
  | cons operation rest ih =>
    have first := s.log_operate (rfl : Level.warn.admits .warn = true) input patience operation
    rw [Machine.warnings_chronicle] at first
    simp only [logged] at ih
    simp only [logged, answers, List.flatMap_cons, List.filter_append, first, ih, unknowns,
      List.map_append]

theorem filter_heads (level : Level) (entries : List LogEntry) :
    (entries.map LogEntry.line).filter level.heads =
      (entries.filter (·.level = level)).map LogEntry.line := by
  have same : level.heads ∘ LogEntry.line = (decide <| ·.level = level) :=
    funext level.heads_line
  rw [List.filter_map, same]

/-- What an advance writes to the log, and how it reads. -/
structure Told (s : Scheduler) (input : Input) (stretch : Stretch) : Prop where
  machine : stretch.scheduler.machine = s.machine.follow input stretch.performed.toList
  log : stretch.log.toList = s.machine.chronicle input stretch.performed.toList
  lines : stretch.log.toList.map LogEntry.line =
    s.machine.overCycles (·.lines input) input stretch.performed.toList
  last : ∀ before fault, before ++ [.cycle] <+: stretch.performed.toList →
    (s.machine.follow input before).fatal? input = some fault →
      stretch.performed.toList = before ++ [.cycle] ∧
        stretch.log.toList.getLast? = some (.halted fault) ∧
        (stretch.log.toList.map LogEntry.line).getLast? = some fault.report
  silent : s.state ≠ .running → stretch.performed = #[] ∧ stretch.log = #[]

theorem told_advance (s : Scheduler) (input : Input) (elapsed patience : Nat) :
    s.Told input (s.advance input elapsed patience) := by
  have log := s.log_advance input elapsed patience
  refine ⟨s.machine_advance input elapsed patience, log, ?_, ?_, ?_⟩
  · rw [log, Machine.map_line_chronicle]
  · intro before fault listed found
    rcases s.idle_or_course input elapsed patience with idle | ⟨-, course⟩
    · rw [congrArg Progress.performed idle] at listed
      simp at listed
    · obtain ⟨faulted, fatal⟩ := Machine.fatal?_eq_some_iff.mp found
      have cut := course.performed_of_fatal listed faulted fatal
      have last : (s.advance input elapsed patience).log.toList.getLast? =
          some (.halted fault) := by
        rw [log, cut, Machine.chronicle, Machine.overCycles_concat, Machine.entries, found]
        simp
      refine ⟨cut, last, ?_⟩
      rw [List.getLast?_map, last]
      exact congrArg some (LogEntry.line_halted fault)
  · intro asleep
    rcases s.idle_or_course input elapsed patience with idle | ⟨running, -⟩
    · exact ⟨congrArg Progress.performed idle, congrArg Progress.log idle⟩
    · exact absurd running asleep

theorem log_tells_run (s : Scheduler) (input : Input) (patience : Nat) :
    (∀ elapsed, s.Told input (s.advance input elapsed patience)) ∧
    ∀ operations,
      (s.logged input patience operations).filter (·.level = .error) =
          (s.turns input patience operations).map .halted ∧
        (s.logged input patience operations).filter (·.level = .warn) =
          (s.unknowns input patience operations).map Machine.passedOver ∧
        ((s.logged input patience operations).map LogEntry.line).filter Level.error.heads =
          (s.turns input patience operations).map Fault.report ∧
        ((s.logged input patience operations).map LogEntry.line).filter Level.warn.heads =
          (s.unknowns input patience operations).map Machine.warning := by
  constructor
  · intro elapsed
    exact s.told_advance input elapsed patience
  · intro operations
    have errors := s.errors_logged input patience operations
    have warnings := s.warnings_logged input patience operations
    refine ⟨errors, warnings, ?_, ?_⟩
    · have halted : LogEntry.line ∘ LogEntry.halted = Fault.report := funext LogEntry.line_halted
      rw [filter_heads, errors, List.map_map, halted]
    · have passed : LogEntry.line ∘ Machine.passedOver = Machine.warning :=
        funext Machine.line_passedOver
      rw [filter_heads, warnings, List.map_map, passed]

/-- The program has an unknown word and returns to nowhere. The host stops the scheduler between the
two, and starts it over when it has been halted. -/
theorem log_tells_run_halted_twice :
    let rom : Rom := ⟨#[0x80, 0x08, 0x00, 0xEE]⟩
    let settings : Settings := { clockRate := 1000, timerRate := 500, seed := some 1 }
    let s := fresh (Machine.boot rom settings (.replicate 8 0)).after
    let operations : List Operation :=
      [.advance 1000000, .stop, .advance 5000000, .run [1000000, 1000000], .advance 1000000,
        .reset rom (.replicate 8 0), .advance 2000000]
    (s.advance .silent 2000000).log.toList.map LogEntry.line =
        ["TRACE 8008 at 0200", "WARN unknown instruction: 0x8008, continuing at 0x202",
          "TRACE 00EE at 0202",
          "ERROR halting: stack underflow: returned from a subroutine with an empty call stack"] ∧
      (s.logged .silent 0 operations).filter (·.level = .error) =
        [.halted .stackUnderflow, .halted .stackUnderflow] ∧
      (s.logged .silent 0 operations).filter (·.level = .warn) =
        [.continued (.unknownInstruction 0x8008) 0x202,
          .continued (.unknownInstruction 0x8008) 0x202] ∧
      ((s.logged .silent 0 operations).map LogEntry.line).filter Level.warn.heads =
        ["WARN unknown instruction: 0x8008, continuing at 0x202",
          "WARN unknown instruction: 0x8008, continuing at 0x202"] := by
  intro rom settings s operations
  have turns : s.turns .silent 0 operations = [.stackUnderflow, .stackUnderflow] := by
    decide +kernel
  have unknowns : s.unknowns .silent 0 operations = [(0x8008, 0x200), (0x8008, 0x200)] := by
    decide +kernel
  have performed : (s.advance .silent 2000000).performed = #[.cycle, .tick, .cycle] := by
    decide +kernel
  obtain ⟨told, counted⟩ := log_tells_run s .silent 0
  obtain ⟨errors, warnings, -, texts⟩ := counted operations
  have lines := (told 2000000).lines
  rw [performed] at lines
  rw [turns] at errors
  rw [unknowns] at warnings texts
  exact ⟨lines.trans (by decide +kernel), errors, warnings, texts.trans (by decide +kernel)⟩

end Scheduler

end Chip8
