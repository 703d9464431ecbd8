import Mathlib.Tactic.GCongr
import Chip8.Proofs.Agenda
import Chip8.Proofs.Course
import Chip8.Proofs.Halting
import Chip8.Proofs.Runs

/-! Keeping the books of time. All the time that a scheduler has taken on since its start has been
spent on tasks, one period each, but for what it still owes, and its machine is what these tasks
have made of the one it started with. While it is not halted it owes less than a period. Periods are
rounded down to whole nanoseconds, which is the only rounding that there is, so the machine never
falls behind its rates. -/

namespace Chip8

/-- Something that a machine has gone through: a task that has been paid for, or a command that a
host has given to it past its scheduler. -/
inductive Deed where
  | performed (task : Task)
  | commanded (command : Machine.Command)

namespace Deed

def command : Deed → Machine.Command
  | performed task => task.command
  | commanded command => command

def task? : Deed → Option Task
  | performed task => some task
  | commanded _ => none

end Deed

/-- The machine of the last start, the time taken on since then, and all that the machine has gone
through in it, with the answers that the input gave. -/
structure Ledger where
  start : Machine
  time : Nat := 0
  deeds : List (Input × Deed) := []

namespace Machine

def undergo (m : Machine) (deeds : List (Input × Deed)) : Machine :=
  deeds.foldl (fun m deed => (m.obey deed.1 deed.2.command).after) m

def followEach (m : Machine) (work : List (Input × Task)) : Machine :=
  work.foldl (fun m task => (m.perform task.1 task.2).after) m

theorem undergo_append (m : Machine) (before after : List (Input × Deed)) :
    m.undergo (before ++ after) = (m.undergo before).undergo after := List.foldl_append

theorem undergo_map_performed (m : Machine) (work : List (Input × Task)) :
    m.undergo (work.map fun task => (task.1, .performed task.2)) = m.followEach work := by
  simp only [undergo, followEach, List.foldl_map, Deed.command, obey_command]

end Machine

namespace Ledger

open Scheduler

def tasks (l : Ledger) : List Task := l.deeds.filterMap (·.2.task?)

def cycles (l : Ledger) : Nat := l.tasks.count .cycle

def ticks (l : Ledger) : Nat := l.tasks.count .tick

def machine (l : Ledger) : Machine := l.start.undergo l.deeds

def spend (l : Ledger) (time : Nat) (work : List (Input × Task)) : Ledger :=
  { l with
    time := l.time + time
    deeds := l.deeds ++ work.map fun task => (task.1, .performed task.2) }

def enter (l : Ledger) (input : Input) : Event → Ledger
  | .owed time => l.spend time []
  | .performed task => l.spend 0 [(input, task)]
  | .stopped | .signalled | .resumed => l

def enterAll (l : Ledger) (input : Input) (events : List Event) : Ledger :=
  events.foldl (·.enter input) l

def operate (l : Ledger) (s : Scheduler) (input : Input) (patience : Nat) : Operation → Ledger
  | .reset rom entropy =>
    let restarted := s.reset rom entropy
    if restarted.fault = none then { start := restarted.after.machine } else l
  | .machine command => { l with deeds := l.deeds ++ [(input, .commanded command)] }
  | operation => l.enterAll input (s.events input patience operation)

@[simp] theorem spend_zero_nil (l : Ledger) : l.spend 0 [] = l := by
  simp [spend]

theorem spend_spend (l : Ledger) (time later : Nat) (first second : List (Input × Task)) :
    (l.spend time first).spend later second = l.spend (time + later) (first ++ second) := by
  simp [spend, Nat.add_assoc]

theorem tasks_spend (l : Ledger) (time : Nat) (work : List (Input × Task)) :
    (l.spend time work).tasks = l.tasks ++ work.map Prod.snd := by
  have each : (fun deed : Input × Deed => deed.2.task?) ∘
      (fun task : Input × Task => (task.1, Deed.performed task.2)) = some ∘ Prod.snd := rfl
  simp only [tasks, spend, List.filterMap_append, List.filterMap_map, each, List.filterMap_eq_map]

theorem cycles_spend (l : Ledger) (time : Nat) (work : List (Input × Task)) :
    (l.spend time work).cycles = l.cycles + (work.map Prod.snd).count .cycle := by
  rw [cycles, tasks_spend, List.count_append, cycles]

theorem ticks_spend (l : Ledger) (time : Nat) (work : List (Input × Task)) :
    (l.spend time work).ticks = l.ticks + (work.map Prod.snd).count .tick := by
  rw [ticks, tasks_spend, List.count_append, ticks]

theorem time_spend (l : Ledger) (time : Nat) (work : List (Input × Task)) :
    (l.spend time work).time = l.time + time := rfl

theorem machine_spend (l : Ledger) (time : Nat) (work : List (Input × Task)) :
    (l.spend time work).machine = l.machine.followEach work := by
  simp only [machine, spend, Machine.undergo_append, Machine.undergo_map_performed]

theorem enterAll_map_performed (l : Ledger) (input : Input) (tasks : List Task) :
    l.enterAll input (tasks.map .performed) = l.spend 0 (tasks.map (input, ·)) := by
  induction tasks generalizing l with
  | nil => exact l.spend_zero_nil.symm
  | cons task rest ih =>
    change (l.spend 0 [(input, task)]).enterAll input (rest.map .performed) = _
    rw [ih, spend_spend]
    rfl

theorem operate_advance (l : Ledger) (s : Scheduler) (input : Input) (patience elapsed : Nat) :
    l.operate s input patience (.advance elapsed) =
      l.spend (s.taken elapsed)
        ((s.advance input elapsed patience).performed.toList.map (input, ·)) := by
  change (l.spend (s.taken elapsed) []).enterAll input _ = _
  rw [enterAll_map_performed, spend_spend]
  rfl

end Ledger

namespace Scheduler

variable {settings : Settings} {s t : Scheduler} {l : Ledger} {input : Input}

/-- A scheduler that can be reached, with the ledger of how. -/
def Kept (settings : Settings) : Scheduler → Ledger → Prop :=
  Recorded (fun s l => ∃ m, m.Reachable settings ∧ s = fresh m ∧ l = { start := m }) after
    fun s (input, patience, operation) l => l.operate s input patience operation

theorem Kept.fresh {m : Machine} (h : m.Reachable settings) :
    (fresh m).Kept settings { start := m } := .start ⟨m, h, rfl, rfl⟩

theorem Kept.operate (input : Input) (patience : Nat) (operation : Operation)
    (h : s.Kept settings l) :
    (s.operate input patience operation).scheduler.Kept settings
      (l.operate s input patience operation) := h.next (input, patience, operation)

theorem Kept.reachable (h : s.Kept settings l) : s.Reachable settings := by
  apply h.forget
  · rintro s l ⟨m, built, rfl, -⟩
    exact .fresh built
  · intro s move reached
    exact .operate move.1 move.2.1 move.2.2 reached

theorem Reachable.kept (h : s.Reachable settings) : ∃ l, s.Kept settings l :=
  h.recorded _ fun m built => ⟨_, m, built, rfl, rfl⟩

/-- All time that was taken on has been spent or is still owed, on cycles as well as on ticks, and
the machine has gone through the tasks that it has been spent on. -/
structure Balanced (s : Scheduler) (l : Ledger) : Prop where
  machine : s.machine = l.machine
  instructions : l.time = l.cycles * s.instructionPeriod + s.instructionDebt
  timers : l.time = l.ticks * s.timerPeriod + s.timerDebt

theorem balanced_fresh (m : Machine) : (Scheduler.fresh m).Balanced { start := m } := by
  constructor <;> simp [Scheduler.fresh, Ledger.machine, Machine.undergo, Ledger.cycles,
    Ledger.ticks, Ledger.tasks]

theorem Balanced.owe (h : s.Balanced l) (time : Nat) : (s.owe time).Balanced (l.spend time []) := by
  refine ⟨?_, ?_, ?_⟩
  · rw [Ledger.machine_spend]
    exact h.machine
  · rw [Ledger.time_spend, Ledger.cycles_spend, h.instructions]
    exact Nat.add_assoc _ _ time
  · rw [Ledger.time_spend, Ledger.ticks_spend, h.timers]
    exact Nat.add_assoc _ _ time

/-- What is due has been owed for a whole period, so paying for it takes exactly that. -/
theorem paid_perform {task : Task} (h : s.due = some task) (input : Input) :
    match task with
    | .cycle => (s.perform input .cycle).after.instructionDebt + s.instructionPeriod =
        s.instructionDebt
    | .tick => (s.perform input .tick).after.timerDebt + s.timerPeriod = s.timerDebt := by
  have owed := le_debt_of_due h
  cases task with
  | cycle =>
    obtain ⟨paid, -⟩ := s.debts_perform_cycle input
    rw [paid]
    exact Nat.sub_add_cancel owed
  | tick => exact Nat.sub_add_cancel owed

theorem Balanced.perform (h : s.Balanced l) {task : Task} (due : s.due = some task)
    (input : Input) : (s.perform input task).after.Balanced (l.spend 0 [(input, task)]) := by
  have paid := paid_perform due input
  have machine : (s.perform input task).after.machine = (l.spend 0 [(input, task)]).machine := by
    rw [machine_perform, h.machine, Ledger.machine_spend]
    rfl
  cases task with
  | cycle =>
    obtain ⟨-, kept⟩ := s.debts_perform_cycle input
    refine ⟨machine, ?_, ?_⟩
    · rw [instructionPeriod_perform, Ledger.time_spend, Ledger.cycles_spend, h.instructions,
        ← paid]
      simp only [List.map_cons, List.map_nil, List.count_cons_self, List.count_nil, Nat.add_mul]
      omega
    · rw [timerPeriod_perform, kept, Ledger.time_spend, Ledger.ticks_spend]
      exact h.timers
  | tick =>
    obtain ⟨kept, -⟩ := s.debts_perform_tick input
    refine ⟨machine, ?_, ?_⟩
    · rw [instructionPeriod_perform, kept, Ledger.time_spend, Ledger.cycles_spend]
      exact h.instructions
    · rw [timerPeriod_perform, Ledger.time_spend, Ledger.ticks_spend, h.timers, ← paid]
      simp only [List.map_cons, List.map_nil, List.count_cons_self, List.count_nil, Nat.add_mul]
      omega

theorem Balanced.of_state (h : s.Balanced l) (state : RunState) :
    ({ s with state } : Scheduler).Balanced l := ⟨h.machine, h.instructions, h.timers⟩

theorem Balanced.undergo (h : s.Balanced l) {event : Event} (admitted : s.Admits event)
    (input : Input) : (s.undergo input event).after.Balanced (l.enter input event) := by
  cases event with
  | owed time => exact h.owe time
  | performed task => exact h.perform admitted input
  | stopped | signalled =>
    change s.stop.Balanced l
    rw [stop_eq]
    exact h.of_state _
  | resumed =>
    change s.resume.Balanced l
    rw [resume_eq]
    exact h.of_state _

theorem Trace.balanced {events : List Event} {log : List LogEntry}
    (trace : Trace input s t events log) (h : s.Balanced l) :
    t.Balanced (l.enterAll input events) := by
  induction trace with
  | start => exact h
  | next event _ admitted ih =>
    rw [Ledger.enterAll, List.foldl_append]
    exact ih.undergo admitted input

theorem Balanced.reset (h : s.Balanced l) (input : Input) (patience : Nat) (rom : Rom)
    (entropy : ChaCha.Key) :
    (s.reset rom entropy).after.Balanced (l.operate s input patience (.reset rom entropy)) := by
  simp only [Ledger.operate]
  by_cases restarted : (s.reset rom entropy).fault = none
  · rw [if_pos restarted]
    have anew := balanced_fresh (s.reset rom entropy).after.machine
    rwa [← (Started.reset s rom entropy restarted).eq_fresh] at anew
  · rw [if_neg restarted, after_reset_of_refused restarted]
    exact h

theorem Balanced.command (h : s.Balanced l) (input : Input) (command : Machine.Command) :
    ({ s with machine := (s.machine.obey input command).after } : Scheduler).Balanced
      { l with deeds := l.deeds ++ [(input, .commanded command)] } := by
  obtain ⟨hi, ht⟩ := periods_of_settings (s := s)
    (r := { s with machine := (s.machine.obey input command).after })
    (s.machine.settings_obey input command)
  refine ⟨?_, ?_, ?_⟩
  · simp only [Ledger.machine, Machine.undergo_append]
    rw [h.machine]
    rfl
  · simpa [hi, Ledger.cycles, Ledger.tasks, Deed.task?] using h.instructions
  · simpa [ht, Ledger.ticks, Ledger.tasks, Deed.task?] using h.timers

theorem Balanced.operate (h : s.Balanced l) (input : Input) (patience : Nat)
    (operation : Operation) :
    (s.operate input patience operation).scheduler.Balanced
      (l.operate s input patience operation) := by
  cases operation with
  | reset rom entropy => exact h.reset input patience rom entropy
  | machine command => exact h.command input command
  | advance | stop | resume | run => exact (s.trace_operate input patience rfl).balanced h

theorem Kept.balanced (h : s.Kept settings l) : s.Balanced l := by
  induction h with
  | start h =>
    obtain ⟨m, -, rfl, rfl⟩ := h
    exact balanced_fresh m
  | next move _ ih =>
    obtain ⟨input, patience, operation⟩ := move
    exact ih.operate input patience operation

theorem Reachable.advances (h : s.Reachable settings) (input : Input) (patience : Nat)
    (slices : List Nat) : (s.advances input patience slices).Reachable settings :=
  advances_keeps h (fun _ slice => .operate input patience (.advance slice)) slices

theorem Reachable.breakdown_advance (h : s.Reachable settings) (hp : s.Paced)
    (room : settings.catchUpLimit + max s.instructionPeriod s.timerPeriod ≤ Time.longest)
    (input : Input) (elapsed patience : Nat) :
    (s.advance input elapsed patience).ending.breakdown? = none := by
  rw [← h.settings_eq] at room
  have fits := (h.settled hp).ending_ne_overflow room input elapsed patience
  rcases ending_advance hp input elapsed patience fits with ⟨done, -⟩ | ⟨fault, halted, -⟩
  · rw [done]
    rfl
  · rw [halted]
    rfl

/-- A run breaks down only in one of its slices, at a scheduler that can be reached as well. -/
theorem Reachable.breakdown_operate (h : s.Reachable settings) (hp : s.Paced)
    (room : settings.catchUpLimit + max s.instructionPeriod s.timerPeriod ≤ Time.longest)
    (input : Input) (patience : Nat) (operation : Operation) :
    (s.operate input patience operation).breakdown = none := by
  cases operation with
  | advance elapsed => exact h.breakdown_advance hp room input elapsed patience
  | stop | resume | reset | machine => rfl
  | run slices =>
    change (s.run input slices patience).ending.breakdown? = none
    rw [run]
    cases Run.account_go s.resume input patience slices with
    | whole _ _ _ done =>
      rw [Run.finish_of_done done]
      simp only [done]
      rfl
    | cut before slice _ _ _ ended broken =>
      have resumed : s.resume.Reachable settings := .operate input patience .resume h
      have before := resumed.advances input patience before
      have same := before.settings_eq.trans h.settings_eq.symm
      obtain ⟨hip, htp⟩ := periods_of_settings same
      rw [Run.finish_of_broken broken, ← ended]
      apply before.breakdown_advance (hp.of_settings same)
      rwa [hip, htp]

theorem debts_balanced (h : s.Reachable settings) (hp : s.Paced) :
    (∃ l, s.Kept settings l) ∧
    (∀ l, s.Kept settings l → s.Balanced l) ∧
    ((∀ fault, s.state ≠ .halted fault) →
      s.instructionDebt < s.instructionPeriod ∧ s.timerDebt < s.timerPeriod) ∧
    (∀ (t : Scheduler) (input : Input),
      (t.due = some .cycle → (t.perform input .cycle).after.instructionDebt +
        t.instructionPeriod = t.instructionDebt) ∧
      (t.due = some .tick → (t.perform input .tick).after.timerDebt + t.timerPeriod =
        t.timerDebt)) ∧
    ∀ input patience operation,
      ((s.operate input patience operation).breakdown ≠ none →
        Time.longest - max s.instructionPeriod s.timerPeriod < settings.catchUpLimit) ∧
      (settings.catchUpLimit ≤ Time.longest - Time.second →
        (s.operate input patience operation).breakdown = none) := by
  have hi : s.instructionPeriod ≤ Time.second := Time.period_le _
  have ht : s.timerPeriod ≤ Time.second := Time.period_le _
  have second : Time.second ≤ Time.longest := by decide
  refine ⟨h.kept, fun l kept => kept.balanced, (h.settled hp).debts, ?_, ?_⟩
  · intro t input
    exact ⟨fun due => paid_perform due input, fun due => paid_perform due input⟩
  · intro input patience operation
    constructor
    · intro broken
      by_contra short
      exact broken (h.breakdown_operate hp (by omega) input patience operation)
    · intro short
      exact h.breakdown_operate hp (by omega) input patience operation

/-- The host lets some time pass, runs the machine for a while, and is left with it stopped in the
middle of a period. -/
theorem debts_balanced_between_periods :
    let settings : Settings :=
      { clockRate := 1000, timerRate := 500, catchUpLimit := 2000000, seed := some 1 }
    let s := fresh glyphAndReturn
    let advanced := (s.operate .silent 0 (.advance 1500000)).scheduler
    let stopped := (advanced.operate .silent 0 (.run [900000, 700000])).scheduler
    stopped.state = .stopped ∧
      (∃ l, stopped.Kept settings l ∧ stopped.Balanced l ∧ l.time = 3100000 ∧ l.cycles = 3 ∧
        l.ticks = 1) ∧
      stopped.instructionDebt < stopped.instructionPeriod ∧
      stopped.timerDebt < stopped.timerPeriod ∧
      (stopped.operate .silent 0 (.run [2000000, 2000000])).breakdown = none := by
  intro settings s advanced stopped
  have start : Machine.Reachable settings glyphAndReturn :=
    .boot ⟨#[0xA0, 0x50, 0x60, 0x00, 0xD0, 0x15, 0x00, 0xEE]⟩ (.replicate 8 0) (by decide +kernel)
  let l := (({ start := glyphAndReturn } : Ledger).operate s .silent 0 (.advance 1500000)).operate
    advanced .silent 0 (.run [900000, 700000])
  have first : advanced.Kept settings _ := .operate .silent 0 (.advance 1500000) (.fresh start)
  have kept : stopped.Kept settings l := .operate .silent 0 (.run [900000, 700000]) first
  have entered : l.time = 3100000 ∧ l.cycles = 3 ∧ l.ticks = 1 := by decide +kernel
  have hp : stopped.Paced := ⟨by decide +kernel, by decide +kernel⟩
  have state : stopped.state = .stopped := by decide +kernel
  obtain ⟨-, balanced, short, -, unbroken⟩ := debts_balanced kept.reachable hp
  obtain ⟨instructions, timers⟩ := short (by simp [state])
  refine ⟨state, ⟨l, kept, balanced l kept, entered⟩, instructions, timers, ?_⟩
  exact (unbroken .silent 0 _).2 (by decide)

end Scheduler

namespace Time

theorem period_mul_le (rate : Nat) : period rate * max rate 1 ≤ second :=
  Nat.div_mul_le_self second (max rate 1)

theorem lt_period_mul_add (rate : Nat) : second < period rate * max rate 1 + max rate 1 :=
  Nat.lt_div_mul_add (Nat.le_max_right rate 1)

end Time

/-- As many tasks have been performed as whole periods have passed. These are no fewer than the rate
asks for, and fewer than `second / (second - rate)` times as many. -/
structure Cadence (rate time count : Nat) : Prop where
  whole : count = time / Time.period rate
  enough : time * max rate 1 / Time.second ≤ count
  bounded : count * (Time.second - max rate 1) ≤ time * max rate 1
  ahead : 0 < count → count * (Time.second - max rate 1) < time * max rate 1

namespace Cadence

variable {rate time count debt : Nat}

theorem enough_of_balance (balance : time = count * Time.period rate + debt)
    (short : debt < Time.period rate) : time * max rate 1 / Time.second ≤ count := by
  have positive : 0 < max rate 1 := Nat.le_max_right rate 1
  have within : time < (count + 1) * Time.period rate := by
    rw [Nat.add_mul]
    omega
  apply Nat.le_of_lt_succ
  apply (Nat.div_lt_iff_lt_mul (by decide)).mpr
  calc time * max rate 1
    _ < (count + 1) * Time.period rate * max rate 1 := by gcongr
    _ = (count + 1) * (Time.period rate * max rate 1) := Nat.mul_assoc ..
    _ ≤ (count + 1) * Time.second := Nat.mul_le_mul_left _ (Time.period_mul_le rate)

/-- What the rounding takes off a second is less than one nanosecond for each task in it. -/
theorem ahead_of_balance (balance : time = count * Time.period rate + debt)
    (short : debt < Time.period rate) (some : 0 < count) :
    count * (Time.second - max rate 1) < time * max rate 1 := by
  have positive : 0 < Time.period rate * max rate 1 :=
    Nat.mul_pos (Nat.zero_lt_of_lt short) (Nat.le_max_right rate 1)
  have rounded := Time.lt_period_mul_add rate
  have spent : count * Time.period rate ≤ time := balance ▸ Nat.le_add_right _ debt
  calc count * (Time.second - max rate 1)
    _ < count * (Time.period rate * max rate 1) := by
      gcongr
      omega
    _ = count * Time.period rate * max rate 1 := (Nat.mul_assoc ..).symm
    _ ≤ time * max rate 1 := Nat.mul_le_mul_right _ spent

theorem of_balance (balance : time = count * Time.period rate + debt)
    (short : debt < Time.period rate) : Cadence rate time count where
  whole := by
    rw [balance, Nat.mul_comm, Nat.mul_add_div (Nat.zero_lt_of_lt short),
      Nat.div_eq_of_lt short, Nat.add_zero]
  enough := enough_of_balance balance short
  bounded := by
    rcases Nat.eq_zero_or_pos count with rfl | some
    · simp
    · exact (ahead_of_balance balance short some).le
  ahead := ahead_of_balance balance short

end Cadence

namespace Scheduler

variable {settings : Settings} {s : Scheduler}

theorem cadence_of_rates (h : s.Reachable settings) (hp : s.Paced)
    (unhalted : ∀ fault, s.state ≠ .halted fault) :
    (∃ l, s.Kept settings l) ∧ ∀ l, s.Kept settings l →
      s.machine = l.machine ∧ Cadence settings.clockRate l.time l.cycles ∧
        Cadence settings.timerRate l.time l.ticks := by
  refine ⟨h.kept, fun l kept => ?_⟩
  have balanced := kept.balanced
  obtain ⟨instructions, timers⟩ := (h.settled hp).debts unhalted
  have hi : s.instructionPeriod = Time.period settings.clockRate := by
    rw [instructionPeriod, h.settings_eq]
    rfl
  have ht : s.timerPeriod = Time.period settings.timerRate := by
    rw [timerPeriod, h.settings_eq]
    rfl
  refine ⟨balanced.machine, ?_, ?_⟩
  · apply Cadence.of_balance
    · exact hi ▸ balanced.instructions
    · exact hi ▸ instructions
  · apply Cadence.of_balance
    · exact ht ▸ balanced.timers
    · exact ht ▸ timers

/-- Three hundred million cycles a second are one cycle in three nanoseconds. The clock of the timers
has been set to no ticks at all, and makes one in a second. -/
theorem cadence_of_rates_three_nanoseconds :
    let settings : Settings :=
      { clockRate := 300000000, timerRate := 0, catchUpLimit := 15, seed := some 1 }
    let s := fresh (Machine.boot ⟨#[0x12, 0x00]⟩ settings (.replicate 8 0)).after
    let early := (s.operate .silent 0 (.advance 10)).scheduler
    let paused := (early.operate .silent 0 .stop).scheduler
    let resumed := (paused.operate .silent 0 .resume).scheduler
    let late := (resumed.operate .silent 0 (.advance 1000)).scheduler
    ∃ l, late.Kept settings l ∧ l.time = 25 ∧ l.cycles = 8 ∧ l.ticks = 0 ∧
      late.machine = l.machine ∧ Cadence 300000000 25 8 ∧ Cadence 0 25 0 := by
  intro settings s early paused resumed late
  have start : Machine.Reachable settings s.machine :=
    .boot ⟨#[0x12, 0x00]⟩ (.replicate 8 0) (by decide +kernel)
  let l := (((({ start := s.machine } : Ledger).operate s .silent 0 (.advance 10)).operate early
    .silent 0 .stop).operate paused .silent 0 .resume).operate resumed .silent 0 (.advance 1000)
  have begun : early.Kept settings _ := .operate .silent 0 (.advance 10) (.fresh start)
  have held : paused.Kept settings _ := .operate .silent 0 .stop begun
  have again : resumed.Kept settings _ := .operate .silent 0 .resume held
  have kept : late.Kept settings l := .operate .silent 0 (.advance 1000) again
  have time : l.time = 25 := by decide +kernel
  have counts : l.cycles = 8 ∧ l.ticks = 0 := by decide +kernel
  have hp : late.Paced := ⟨by decide +kernel, by decide +kernel⟩
  have state : late.state = .running := by decide +kernel
  obtain ⟨-, cadence⟩ := cadence_of_rates kept.reachable hp (by simp [state])
  obtain ⟨machine, cycles, ticks⟩ := cadence l kept
  rw [time, counts.1] at cycles
  rw [time, counts.2] at ticks
  exact ⟨l, kept, time, counts.1, counts.2, machine, cycles, ticks⟩

end Scheduler

end Chip8
