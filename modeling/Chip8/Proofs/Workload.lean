import Chip8.Proofs.Ledger

/-! When a stretch of time is over. With positive periods the debts say beforehand how many cycles
and how many ticks there are to perform, and only a fatal fault ends the stretch with fewer. A period
of zero is never paid off: the task that takes no time stays due, and nothing else gets its turn. -/

namespace Chip8

namespace Scheduler

variable {s : Scheduler}

def owed (s : Scheduler) : Task → Nat
  | .cycle => s.instructionDebt / s.instructionPeriod
  | .tick => s.timerDebt / s.timerPeriod

theorem owed_perform (hp : s.Paced) {task : Task} (due : s.due = some task) (input : Input)
    (kind : Task) :
    (s.perform input task).after.owed kind + [task].count kind = s.owed kind := by
  have late := le_debt_of_due due
  cases task with
  | cycle =>
    obtain ⟨paid, kept⟩ := s.debts_perform_cycle input
    cases kind with
    | cycle =>
      simp only [owed, instructionPeriod_perform, paid]
      exact (Nat.div_eq_sub_div hp.instructions late).symm
    | tick => simp [owed, timerPeriod_perform, kept]
  | tick =>
    obtain ⟨kept, paid⟩ := s.debts_perform_tick input
    cases kind with
    | cycle => simp [owed, instructionPeriod_perform, kept]
    | tick =>
      simp only [owed, timerPeriod_perform, paid]
      exact (Nat.div_eq_sub_div hp.timers late).symm

theorem owed_of_idle (running : s.state = .running) (idle : s.due = none) (kind : Task) :
    s.owed kind = 0 := by
  obtain ⟨instructions, timers⟩ := due_eq_none_iff.mp idle running
  cases kind with
  | cycle => exact Nat.div_eq_of_lt instructions
  | tick => exact Nat.div_eq_of_lt timers

/-- The debts are such that the task stays due to a running scheduler however often it has been
performed, and comes before the other one. -/
def Stuck (s : Scheduler) : Task → Prop
  | .cycle => s.instructionPeriod = 0 ∧ s.timerDebt < s.instructionDebt + s.timerPeriod
  | .tick => s.timerPeriod = 0 ∧ s.instructionDebt ≤ s.timerDebt

theorem Stuck.due {task : Task} (h : s.Stuck task) (running : s.state = .running) :
    s.due = some task := by
  cases task with
  | cycle =>
    obtain ⟨period, older⟩ := h
    exact due_eq_cycle_iff.mpr ⟨running, by omega, by omega⟩
  | tick =>
    obtain ⟨period, older⟩ := h
    exact due_eq_tick_iff.mpr ⟨running, by omega, by omega⟩

theorem Stuck.perform {task : Task} (h : s.Stuck task) (input : Input) :
    (s.perform input task).after.Stuck task := by
  cases task with
  | cycle =>
    obtain ⟨paid, kept⟩ := s.debts_perform_cycle input
    simpa only [Stuck, instructionPeriod_perform, timerPeriod_perform, paid, kept, h.1,
      Nat.sub_zero] using h
  | tick =>
    obtain ⟨kept, paid⟩ := s.debts_perform_tick input
    simpa only [Stuck, timerPeriod_perform, paid, kept, h.1, Nat.sub_zero] using h

theorem Stuck.owe {task : Task} (h : s.Stuck task) (time : Nat) : (s.owe time).Stuck task := by
  cases task with
  | cycle =>
    obtain ⟨period, older⟩ := h
    refine ⟨period, ?_⟩
    simp only [timerDebt_owe, instructionDebt_owe, timerPeriod_owe]
    omega
  | tick =>
    obtain ⟨period, older⟩ := h
    exact ⟨period, Nat.add_le_add_right older time⟩

/-- A debt that nothing is ever paid back of is all the time since the start, and the other one is
no longer than that. -/
theorem Reachable.stuck {settings : Settings} (h : s.Reachable settings) :
    (s.timerPeriod = 0 → s.Stuck .tick) ∧
      (s.instructionPeriod = 0 → 0 < s.timerPeriod → s.Stuck .cycle) := by
  obtain ⟨l, kept⟩ := h.kept
  have instructions := kept.balanced.instructions
  have timers := kept.balanced.timers
  constructor
  · intro period
    refine ⟨period, ?_⟩
    rw [period, Nat.mul_zero, Nat.zero_add] at timers
    omega
  · intro period positive
    refine ⟨period, ?_⟩
    rw [period, Nat.mul_zero, Nat.zero_add] at instructions
    omega

end Scheduler

namespace Progress

variable {p : Progress}

theorem count_settle (paced : p.scheduler.Paced) (input : Input) (limit : Nat) (kind : Task) :
    (p.settle input limit).performed.toList.count kind +
        (p.settle input limit).scheduler.owed kind =
      p.performed.toList.count kind + p.scheduler.owed kind := by
  induction limit generalizing p with
  | zero => rfl
  | succ limit ih =>
    cases due : p.scheduler.due with
    | none => rw [settle_of_idle due]
    | some task =>
      have paid := Scheduler.owed_perform paced due input kind
      have performed : (p.perform input task).performed.toList =
          p.performed.toList ++ [task] := Array.toList_push
      rw [settle_of_due due, ih (paced.perform input task), performed, List.count_append, ← paid]
      simp only [perform]
      omega

/-- A list of as many tasks of each kind as are owed, of which all are performed or those up to a
fatal fault. -/
theorem exists_course (paced : p.scheduler.Paced) (running : p.scheduler.state = .running)
    (fresh : p.performed = #[]) (input : Input) {limit : Nat}
    (enough : p.scheduler.workload ≤ limit) :
    ∃ tasks, (∀ kind, tasks.count kind = p.scheduler.owed kind) ∧
      Course p.scheduler.machine input tasks (p.settle input limit) := by
  have start : Course p.scheduler.machine input p.performed.toList p := by
    rw [fresh]
    exact .whole (by rw [fresh]) (Machine.survives_nil _ input) rfl running
  have course := start.settle limit
  have idle := due_settle p input limit paced.instructions paced.timers enough
  have total (kind : Task) := count_settle paced input limit kind
  simp only [fresh, List.count_nil, Nat.zero_add] at total
  rcases course.running_or_halted with running | ⟨fault, halted⟩
  · refine ⟨_, fun kind => ?_, course⟩
    rw [← total, Scheduler.owed_of_idle running idle, Nat.add_zero]
  · -- what is owed at a halt would have come after the fault
    let rest := List.replicate ((p.settle input limit).scheduler.owed .cycle) Task.cycle ++
      List.replicate ((p.settle input limit).scheduler.owed .tick) Task.tick
    refine ⟨_, fun kind => ?_, course.append_of_halted halted rest⟩
    rw [List.count_append, ← total]
    cases kind <;> simp [rest, List.count_append, List.count_replicate]

theorem stuck_settle {task : Task} (h : p.scheduler.Stuck task) (input : Input) (limit : Nat) :
    (p.settle input limit).scheduler.Stuck task := by
  induction limit generalizing p with
  | zero => exact h
  | succ limit ih =>
    cases due : p.scheduler.due with
    | none => rwa [settle_of_idle due]
    | some next =>
      obtain rfl : next = task :=
        Option.some.inj (due.symm.trans (h.due (Scheduler.running_of_due due)))
      rw [settle_of_due due]
      exact ih (h.perform input)

theorem course_of_stuck {task : Task} (h : p.scheduler.Stuck task) {m : Machine} {input : Input}
    {tasks : List Task} (course : Course m input tasks p) (limit : Nat) :
    Course m input (tasks ++ List.replicate limit task) (p.settle input limit) := by
  induction limit generalizing p tasks with
  | zero => simpa [settle] using course
  | succ limit ih =>
    rcases course.running_or_halted with running | ⟨fault, halted⟩
    · rw [settle_of_due (h.due running), List.replicate_succ, ← List.singleton_append,
        ← List.append_assoc]
      exact ih (h.perform input) (course.perform running task)
    · rw [settle_of_idle (Scheduler.due_of_halted halted)]
      exact course.append_of_halted halted _

end Progress

theorem Course.performed_prefix {m : Machine} {input : Input} {tasks : List Task} {p : Progress}
    (h : Course m input tasks p) : p.performed.toList <+: tasks := by
  cases h with
  | whole performed => exact performed ▸ List.prefix_rfl
  | cut before fault listed performed => rwa [performed]

/-- Ticks have no faults, so nothing can cut them short. -/
theorem Course.performed_ticks {m : Machine} {input : Input} {n : Nat} {p : Progress}
    (h : Course m input (List.replicate n .tick) p) :
    p.performed.toList = List.replicate n .tick ∧ p.scheduler.state = .running := by
  cases h with
  | whole performed _ _ state => exact ⟨performed, state⟩
  | cut before fault listed =>
    have cycle : Task.cycle ∈ List.replicate n .tick :=
      listed.subset (List.mem_append_right before (List.mem_singleton_self _))
    cases List.eq_of_mem_replicate cycle

theorem length_eq_count_add_count (tasks : List Task) :
    tasks.length = tasks.count .cycle + tasks.count .tick := by
  induction tasks with
  | nil => rfl
  | cons task rest ih =>
    cases task with
    | cycle =>
      rw [List.length_cons, List.count_cons_self, List.count_cons_of_ne (by decide), ih]
      omega
    | tick =>
      rw [List.length_cons, List.count_cons_self, List.count_cons_of_ne (by decide), ih]
      omega

namespace Scheduler

variable {s : Scheduler} {settings : Settings}

/-- A stretch of time that was to perform these tasks: it has performed all of them and ends as it
should, or those up to the first fatal fault, which ends it. -/
structure Spent (s : Scheduler) (input : Input) (tasks : List Task) (ending : Ending)
    (stretch : Stretch) : Prop where
  course : Course s.machine input tasks stretch.toProgress
  ended : (stretch.scheduler.state = .running ∧ stretch.ending = ending) ∨
    ∃ fault, stretch.scheduler.state = .halted fault ∧ stretch.ending = .halted fault

/-- What a running scheduler comes to if the time fits, whatever the periods are. -/
theorem advance_eq_settle (running : s.state = .running) {elapsed : Nat} (fits : s.Fits elapsed)
    (input : Input) (patience : Nat) :
    (s.advance input elapsed patience).toProgress =
        Progress.settle { scheduler := s.owe (s.accepted elapsed) } input
          ((s.owe (s.accepted elapsed)).workload + patience) ∧
      (s.advance input elapsed patience).ending =
        (s.advance input elapsed patience).toProgress.ending := by
  rw [advance_of_fits running fits]
  exact ⟨rfl, rfl⟩

theorem spent_advance {input : Input} {elapsed patience : Nat} {tasks : List Task} {ending : Ending}
    (course : Course s.machine input tasks (s.advance input elapsed patience).toProgress)
    (unhindered : (s.advance input elapsed patience).scheduler.state = .running →
      (s.advance input elapsed patience).ending = ending) :
    Spent s input tasks ending (s.advance input elapsed patience) := by
  refine ⟨course, ?_⟩
  rcases course.running_or_halted with running | ⟨fault, halted⟩
  · exact Or.inl ⟨running, unhindered running⟩
  · exact Or.inr ⟨fault, halted, ending_of_halted halted⟩

theorem spent_of_paced (hp : s.Paced) (running : s.state = .running) (input : Input)
    {elapsed : Nat} (fits : s.Fits elapsed) (patience : Nat) :
    ∃ tasks, (∀ kind, tasks.count kind = (s.owe (s.accepted elapsed)).owed kind) ∧
      Spent s input tasks .done (s.advance input elapsed patience) := by
  obtain ⟨settled, ended⟩ := advance_eq_settle running fits input patience
  have enough := Nat.le_add_right (s.owe (s.accepted elapsed)).workload patience
  have owing := hp.owe (s.accepted elapsed)
  obtain ⟨tasks, counts, course⟩ :=
    Progress.exists_course (p := { scheduler := s.owe (s.accepted elapsed) }) owing running rfl
      input enough
  have idle := Progress.due_settle { scheduler := s.owe (s.accepted elapsed) } input _
    owing.instructions owing.timers enough
  rw [← settled] at course idle
  refine ⟨tasks, counts, spent_advance course fun going => ?_⟩
  rw [ended, Progress.ending, going, idle]

/-- Whatever number of tasks is allowed for, it is used up by the one task that stays due. -/
theorem spent_of_stuck {task : Task} (h : s.Stuck task) (running : s.state = .running)
    (input : Input) {elapsed : Nat} (fits : s.Fits elapsed) (patience : Nat) :
    ∃ n, patience ≤ n ∧
      Spent s input (List.replicate n task) .unfinished (s.advance input elapsed patience) := by
  obtain ⟨settled, ended⟩ := advance_eq_settle running fits input patience
  have owing := h.owe (s.accepted elapsed)
  have start : Course s.machine input [] { scheduler := s.owe (s.accepted elapsed) } :=
    .whole rfl (s.machine.survives_nil input) rfl running
  have course := Progress.course_of_stuck owing start
    ((s.owe (s.accepted elapsed)).workload + patience)
  have stuck := Progress.stuck_settle (p := { scheduler := s.owe (s.accepted elapsed) }) owing input
    ((s.owe (s.accepted elapsed)).workload + patience)
  rw [← settled] at course stuck
  refine ⟨_, Nat.le_add_left _ _, spent_advance course fun going => ?_⟩
  rw [ended, Progress.ending, going, stuck.due going]

theorem div_add_le_succ {debt period time limit : Nat} (short : debt < period)
    (clamped : time ≤ limit) : (debt + time) / period ≤ limit / period + 1 := by
  have positive : 0 < period := by omega
  calc (debt + time) / period ≤ (limit + period) / period := Nat.div_le_div_right (by omega)
    _ = limit / period + 1 := Nat.add_div_right limit positive

theorem over_when_paid_off (h : s.Reachable settings) (running : s.state = .running)
    (input : Input) (elapsed : Nat) (fits : s.Fits elapsed) (patience : Nat) :
    let stretch := s.advance input elapsed patience
    let cycles := (s.instructionDebt + s.accepted elapsed) / s.instructionPeriod
    let ticks := (s.timerDebt + s.accepted elapsed) / s.timerPeriod
    (s.Paced →
      (∃ tasks, tasks.length = cycles + ticks ∧ tasks.count .cycle = cycles ∧
        tasks.count .tick = ticks ∧ Spent s input tasks .done stretch) ∧
      stretch.performed.toList.count .cycle ≤ settings.catchUpLimit / s.instructionPeriod + 1 ∧
      stretch.performed.toList.count .tick ≤ settings.catchUpLimit / s.timerPeriod + 1) ∧
    (s.timerPeriod = 0 → ∃ n, patience ≤ n ∧
      stretch.performed.toList = List.replicate n .tick ∧ stretch.ending = .unfinished) ∧
    (s.instructionPeriod = 0 → 0 < s.timerPeriod → ∃ n, patience ≤ n ∧
      Spent s input (List.replicate n .cycle) .unfinished stretch) ∧
    ∀ rate, ((settings.withTimerRate rate).timerPeriod = 0 ↔ Time.second < rate) ∧
      ((settings.withClockRate rate).instructionPeriod = 0 ↔ Time.second < rate) := by
  intro stretch cycles ticks
  refine ⟨?_, ?_, ?_, ?_⟩
  · intro hp
    obtain ⟨tasks, counts, spent⟩ := spent_of_paced hp running input fits patience
    have listed := spent.course.performed_prefix.sublist
    have clamped : s.accepted elapsed ≤ settings.catchUpLimit := by
      rw [← h.settings_eq]
      exact Nat.min_le_right _ _
    obtain ⟨instructions, timers⟩ := (h.settled hp).debts (by simp [running])
    refine ⟨⟨tasks, ?_, counts .cycle, counts .tick, spent⟩, ?_, ?_⟩
    · rw [length_eq_count_add_count, counts, counts]
      rfl
    · refine (listed.count_le .cycle).trans ?_
      rw [counts]
      exact div_add_le_succ instructions clamped
    · refine (listed.count_le .tick).trans ?_
      rw [counts]
      exact div_add_le_succ timers clamped
  · intro period
    obtain ⟨n, enough, spent⟩ := spent_of_stuck (h.stuck.1 period) running input fits patience
    obtain ⟨performed, going⟩ := spent.course.performed_ticks
    refine ⟨n, enough, performed, ?_⟩
    rcases spent.ended with ⟨-, unfinished⟩ | ⟨fault, halted, -⟩
    · exact unfinished
    · rw [going] at halted
      cases halted
  · intro period positive
    exact spent_of_stuck (h.stuck.2 period positive) running input fits patience
  · intro rate
    have above : Time.second < max rate 1 ↔ Time.second < rate := by
      simp only [Time.second]
      omega
    exact ⟨(Time.period_eq_zero_iff _).trans above, (Time.period_eq_zero_iff _).trans above⟩

/-- One and a half cycles are owed when a stretch of time comes in which the machine faults. With a
rate of two tasks in a nanosecond, one kind of task is all that there is. -/
theorem over_when_paid_off_at_three_rates :
    let rom : Rom := ⟨#[0x80, 0x08, 0x00, 0xEE]⟩
    let even := ((fresh strayReturn).operate .silent 0 (.advance 1500000)).scheduler
    let ticking := fresh (Machine.boot rom { timerRate := 2000000000 } (.replicate 8 0)).after
    let cycling := fresh (Machine.boot rom { clockRate := 2000000000 } (.replicate 8 0)).after
    (even.advance .silent 9000000000).performed = #[.tick, .cycle] ∧
      (∃ tasks, tasks.length = 250 + 125 ∧
        Spent even .silent tasks .done (even.advance .silent 9000000000)) ∧
      (∃ n, 3 ≤ n ∧ (ticking.advance .silent 0 3).performed.toList = List.replicate n .tick ∧
        (ticking.advance .silent 0 3).ending = .unfinished) ∧
      ∃ n, 3 ≤ n ∧
        Spent cycling .silent (List.replicate n .cycle) .unfinished
          (cycling.advance .silent 0 3) := by
  intro rom even ticking cycling
  have started : (fresh strayReturn).Reachable
      { clockRate := 1000, timerRate := 500, seed := some 1 } :=
    .fresh (.boot rom (.replicate 8 0) (by decide +kernel))
  have reached : even.Reachable { clockRate := 1000, timerRate := 500, seed := some 1 } :=
    .operate .silent 0 (.advance 1500000) started
  have running : even.state = .running := by decide +kernel
  have fits : even.Fits 9000000000 := by decide +kernel
  have paced : even.Paced := ⟨by decide +kernel, by decide +kernel⟩
  obtain ⟨counted, -⟩ := over_when_paid_off reached running .silent 9000000000 fits 0
  obtain ⟨⟨tasks, length, -, -, spent⟩, -⟩ := counted paced
  have ticks : ticking.Reachable { timerRate := 2000000000 } :=
    .fresh (.boot rom (.replicate 8 0) (by decide +kernel))
  have ticksFit : ticking.Fits 0 := by decide +kernel
  obtain ⟨-, onlyTicks, -⟩ := over_when_paid_off ticks rfl .silent 0 ticksFit 3
  have cycles : cycling.Reachable { clockRate := 2000000000 } :=
    .fresh (.boot rom (.replicate 8 0) (by decide +kernel))
  have cyclesFit : cycling.Fits 0 := by decide +kernel
  obtain ⟨-, -, onlyCycles, -⟩ := over_when_paid_off cycles rfl .silent 0 cyclesFit 3
  refine ⟨by decide +kernel, ⟨tasks, ?_, spent⟩, ?_, ?_⟩
  · rw [length]
    decide +kernel
  · exact onlyTicks (by decide +kernel)
  · exact onlyCycles (by decide +kernel) (by decide +kernel)

end Scheduler

end Chip8
