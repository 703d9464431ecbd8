import Chip8.Proofs.Events

/-! Paying off what is due. With positive periods the number of tasks allowed for plays no part
once it reaches the workload, so performing all that is due is one function. It does not matter
when the debts grow: time owed before or after the tasks that are already due gives the same
tasks in the same order. -/

namespace Chip8

def RunState.after (state : RunState) : Option Fault → RunState
  | some fault => if fault.isFatal then .halted fault else state
  | none => state

theorem RunState.after_cases (state : RunState) (fault? : Option Fault) :
    state.after fault? = state ∨ ∃ fault, state.after fault? = .halted fault := by
  cases fault? with
  | none => exact Or.inl rfl
  | some fault =>
    by_cases hf : fault.isFatal = true
    · exact Or.inr ⟨fault, if_pos hf⟩
    · exact Or.inl (if_neg hf)

namespace Scheduler

structure Paced (s : Scheduler) : Prop where
  instructions : 0 < s.instructionPeriod
  timers : 0 < s.timerPeriod

variable {s r : Scheduler}

theorem periods_of_settings (h : r.machine.settings = s.machine.settings) :
    r.instructionPeriod = s.instructionPeriod ∧ r.timerPeriod = s.timerPeriod := by
  simp [instructionPeriod, timerPeriod, h]

theorem Paced.of_settings (hp : s.Paced) (h : r.machine.settings = s.machine.settings) :
    r.Paced := by
  obtain ⟨hi, ht⟩ := periods_of_settings h
  exact ⟨hi ▸ hp.instructions, ht ▸ hp.timers⟩

@[simp] theorem machine_owe (s : Scheduler) (time : Nat) : (s.owe time).machine = s.machine := rfl

@[simp] theorem state_owe (s : Scheduler) (time : Nat) : (s.owe time).state = s.state := rfl

@[simp] theorem instructionDebt_owe (s : Scheduler) (time : Nat) :
    (s.owe time).instructionDebt = s.instructionDebt + time := rfl

@[simp] theorem timerDebt_owe (s : Scheduler) (time : Nat) :
    (s.owe time).timerDebt = s.timerDebt + time := rfl

@[simp] theorem instructionPeriod_owe (s : Scheduler) (time : Nat) :
    (s.owe time).instructionPeriod = s.instructionPeriod := rfl

@[simp] theorem timerPeriod_owe (s : Scheduler) (time : Nat) :
    (s.owe time).timerPeriod = s.timerPeriod := rfl

theorem owe_owe (s : Scheduler) (a b : Nat) : (s.owe a).owe b = s.owe (a + b) := by
  simp [owe, Nat.add_assoc]

/-- Adding the periods on both sides compares the two waits without a subtraction. A tick that
is not owed yet loses that comparison against a cycle that is. -/
theorem due_of_running (running : s.state = .running) :
    s.due =
      if s.timerPeriod ≤ s.timerDebt ∧
          s.instructionDebt + s.timerPeriod ≤ s.timerDebt + s.instructionPeriod then some .tick
      else if s.instructionPeriod ≤ s.instructionDebt then some .cycle
      else none := by
  simp only [due, lag]
  rw [running]
  by_cases cycle : s.instructionPeriod ≤ s.instructionDebt <;>
    by_cases tick : s.timerPeriod ≤ s.timerDebt <;> simp only [cycle, tick, if_true, if_false]
  · congr 1
    simp only [true_and, eq_iff_iff]
    omega
  · simp
  · rw [if_pos ⟨trivial, by omega⟩]
  · simp

theorem due_eq_tick_iff :
    s.due = some .tick ↔ s.state = .running ∧ s.timerPeriod ≤ s.timerDebt ∧
      s.instructionDebt + s.timerPeriod ≤ s.timerDebt + s.instructionPeriod := by
  constructor
  · intro h
    have running := running_of_due h
    rw [due_of_running running] at h
    grind
  · rintro ⟨running, owed⟩
    rw [due_of_running running, if_pos owed]

theorem due_eq_cycle_iff :
    s.due = some .cycle ↔ s.state = .running ∧ s.instructionPeriod ≤ s.instructionDebt ∧
      s.timerDebt + s.instructionPeriod < s.instructionDebt + s.timerPeriod := by
  constructor
  · intro h
    have running := running_of_due h
    rw [due_of_running running] at h
    grind
  · rintro ⟨running, owed, older⟩
    rw [due_of_running running, if_neg (by omega), if_pos owed]

theorem due_eq_none_iff :
    s.due = none ↔
      (s.state = .running →
        s.instructionDebt < s.instructionPeriod ∧ s.timerDebt < s.timerPeriod) := by
  constructor
  · intro h running
    rw [due_of_running running] at h
    grind
  · intro h
    cases due : s.due with
    | none => rfl
    | some task =>
      obtain ⟨instructions, timers⟩ := h (running_of_due due)
      have owed := le_debt_of_due due
      cases task <;> simp only at owed <;> omega

/-- More time to pay off leaves the next task the same: both waits grow by as much. -/
theorem due_owe {task : Task} (h : s.due = some task) (time : Nat) :
    (s.owe time).due = some task := by
  cases task with
  | tick =>
    rw [due_eq_tick_iff] at h ⊢
    simp only [state_owe, timerPeriod_owe, timerDebt_owe, instructionDebt_owe,
      instructionPeriod_owe]
    exact ⟨h.1, by omega, by omega⟩
  | cycle =>
    rw [due_eq_cycle_iff] at h ⊢
    simp only [state_owe, timerPeriod_owe, timerDebt_owe, instructionDebt_owe,
      instructionPeriod_owe]
    exact ⟨h.1, by omega, by omega⟩

theorem perform_owe {task : Task} (h : s.due = some task) (input : Input) (time : Nat) :
    (s.owe time).perform input task = (s.perform input task).map (·.owe time) := by
  have owed := le_debt_of_due h
  cases task with
  | tick =>
    have later : s.timerDebt + time - s.timerPeriod = s.timerDebt - s.timerPeriod + time :=
      Nat.sub_add_comm owed
    simp only [perform, tick, Outcome.ok, Outcome.map, timerPeriod_owe, timerDebt_owe, later]
    rfl
  | cycle =>
    have later : s.instructionDebt + time - s.instructionPeriod =
        s.instructionDebt - s.instructionPeriod + time := Nat.sub_add_comm owed
    simp only [perform, cycle, machine_owe, instructionPeriod_owe, instructionDebt_owe, later]
    cases (s.machine.step input).fault with
    | none => rfl
    | some fault =>
      simp only [afterFault]
      split <;> rfl

theorem Paced.owe (h : s.Paced) (time : Nat) : (s.owe time).Paced := ⟨h.1, h.2⟩

theorem Paced.perform (h : s.Paced) (input : Input) (task : Task) :
    (s.perform input task).after.Paced :=
  h.of_settings (s.settings_perform input task)

end Scheduler

namespace Progress

variable {p : Progress}

def settled (p : Progress) (input : Input) : Progress := p.settle input p.scheduler.workload

def owe (p : Progress) (time : Nat) : Progress := { p with scheduler := p.scheduler.owe time }

def append (p q : Progress) : Progress where
  scheduler := q.scheduler
  performed := p.performed ++ q.performed
  log := p.log ++ q.log

theorem settle_eq_settle (paced : p.scheduler.Paced) (input : Input) {a b : Nat}
    (ha : p.scheduler.workload ≤ a) (hb : p.scheduler.workload ≤ b) :
    p.settle input a = p.settle input b := by
  induction a generalizing p b with
  | zero =>
    have due : p.scheduler.due = none :=
      due_settle p input 0 paced.instructions paced.timers ha
    exact (settle_of_idle due input b).symm
  | succ a ih =>
    cases due : p.scheduler.due with
    | none => rw [settle_of_idle due, settle_of_idle due]
    | some task =>
      have fewer :=
        Scheduler.workload_perform input due paced.instructions paced.timers
      cases b with
      | zero => omega
      | succ b =>
        rw [settle_of_due due, settle_of_due due]
        refine ih (paced.perform input task) ?_ ?_
        · change (p.scheduler.perform input task).after.workload ≤ a
          omega
        · change (p.scheduler.perform input task).after.workload ≤ b
          omega

theorem settled_of_idle (h : p.scheduler.due = none) (input : Input) : p.settled input = p :=
  settle_of_idle h input p.scheduler.workload

theorem settled_of_due (paced : p.scheduler.Paced) {task : Task}
    (h : p.scheduler.due = some task) (input : Input) :
    p.settled input = (p.perform input task).settled input := by
  have fewer := Scheduler.workload_perform input h paced.instructions paced.timers
  simp only [settled]
  rw [← fewer]
  exact settle_of_due h input _

theorem due_settled (paced : p.scheduler.Paced) (input : Input) :
    (p.settled input).scheduler.due = none :=
  due_settle p input _ paced.instructions paced.timers (Nat.le_refl _)

/-- To prove something of a progress with positive periods, prove it where nothing is due, and
prove it of a progress with a due task from the progress after that task. -/
@[elab_as_elim]
theorem due_induction (input : Input) {motive : ∀ p : Progress, p.scheduler.Paced → Prop}
    (idle : ∀ (p : Progress) (paced : p.scheduler.Paced), p.scheduler.due = none →
      motive p paced)
    (due : ∀ (p : Progress) (paced : p.scheduler.Paced) (task : Task),
      p.scheduler.due = some task →
      motive (p.perform input task) (paced.perform input task) → motive p paced)
    (p : Progress) (paced : p.scheduler.Paced) : motive p paced := by
  induction load : p.scheduler.workload generalizing p with
  | zero =>
    exact idle p paced
      (due_settle p input 0 paced.instructions paced.timers (Nat.le_of_eq load))
  | succ n ih =>
    cases next : p.scheduler.due with
    | none => exact idle p paced next
    | some task =>
      have fewer := Scheduler.workload_perform input next paced.instructions paced.timers
      refine due p paced task next (ih _ (paced.perform input task) ?_)
      change (p.scheduler.perform input task).after.workload = n
      omega

theorem perform_owe {task : Task} (h : p.scheduler.due = some task) (input : Input)
    (time : Nat) : (p.owe time).perform input task = (p.perform input task).owe time := by
  simp only [perform, owe, Scheduler.perform_owe h]
  rfl

/-- Time that comes on top after the due tasks might as well have been there before them. -/
theorem settled_owe (paced : p.scheduler.Paced) (input : Input) (time : Nat) :
    ((p.settled input).owe time).settled input = (p.owe time).settled input := by
  induction p, paced using due_induction input with
  | idle p paced idle => rw [settled_of_idle idle]
  | due p paced task due ih =>
    have before : (p.owe time).settled input = ((p.perform input task).owe time).settled input := by
      rw [← perform_owe due]
      exact settled_of_due (paced.owe time) (Scheduler.due_owe due time) input
    rw [settled_of_due paced due, ih, before]

@[simp] theorem append_scheduler (p q : Progress) : (p.append q).scheduler = q.scheduler := rfl

theorem append_perform (p q : Progress) (input : Input) (task : Task) :
    (p.append q).perform input task = p.append (q.perform input task) := by
  simp [append, perform, Array.append_assoc]

theorem append_settle (p q : Progress) (input : Input) (limit : Nat) :
    (p.append q).settle input limit = p.append (q.settle input limit) := by
  induction limit generalizing q with
  | zero => rfl
  | succ limit ih =>
    simp only [settle]
    simp only [append_scheduler]
    split
    · rfl
    · rw [append_perform]
      exact ih _

end Progress

namespace Scheduler

def spend (s : Scheduler) (input : Input) (time : Nat) : Progress :=
  Progress.settled { scheduler := s.owe time } input

variable {s : Scheduler}

theorem due_spend (paced : s.Paced) (input : Input) (time : Nat) :
    (s.spend input time).scheduler.due = none :=
  Progress.due_settled (paced.owe time) input

/-- The second part of some time might as well be owed once the first part is spent. -/
theorem spend_add_eq_settled (paced : s.Paced) (input : Input) (a b : Nat) :
    s.spend input (a + b) = ((s.spend input a).owe b).settled input := by
  have h := Progress.settled_owe (p := { scheduler := s.owe a }) (paced.owe a) input b
  rw [spend, ← owe_owe]
  exact h.symm

theorem spend_add (paced : s.Paced) (input : Input) (a b : Nat) :
    s.spend input (a + b) =
      (s.spend input a).append ((s.spend input a).scheduler.spend input b) := by
  have same : (s.spend input a).owe b =
      (s.spend input a).append { scheduler := (s.spend input a).scheduler.owe b } := by
    simp [Progress.owe, Progress.append]
  rw [spend_add_eq_settled paced, same]
  exact Progress.append_settle (s.spend input a) _ input _

theorem spend_of_halted {fault : Fault} (h : s.state = .halted fault) (input : Input)
    (time : Nat) : s.spend input time = { scheduler := s.owe time } :=
  Progress.settled_of_idle (due_of_halted h) input

theorem spend_zero (h : s.due = none) (input : Input) : s.spend input 0 = { scheduler := s } :=
  Progress.settled_of_idle (p := { scheduler := s }) h input

theorem after_cycle (s : Scheduler) (input : Input) :
    (s.perform input .cycle).after =
      { machine := (s.machine.step input).after
        instructionDebt := s.instructionDebt - s.instructionPeriod
        timerDebt := s.timerDebt
        state := s.state.after (s.machine.step input).fault } := by
  simp only [perform, cycle]
  cases (s.machine.step input).fault with
  | none => rfl
  | some fault =>
    simp only [afterFault, RunState.after]
    split <;> rfl

theorem state_perform (s : Scheduler) (input : Input) (task : Task) :
    (s.perform input task).after.state = s.state ∨
      ∃ fault, (s.perform input task).after.state = .halted fault := by
  cases task with
  | tick => exact Or.inl rfl
  | cycle =>
    rw [after_cycle]
    exact s.state.after_cases (s.machine.step input).fault

end Scheduler

namespace Progress

theorem settings_settle (p : Progress) (input : Input) (limit : Nat) :
    (p.settle input limit).scheduler.machine.settings = p.scheduler.machine.settings := by
  apply settle_keeps (P := fun q => q.scheduler.machine.settings = p.scheduler.machine.settings) rfl
  intro q task _ h
  exact (q.scheduler.settings_perform input task).trans h

theorem state_settle (p : Progress) (input : Input) (limit : Nat) :
    (p.settle input limit).scheduler.state = p.scheduler.state ∨
      ∃ fault, (p.settle input limit).scheduler.state = .halted fault := by
  apply settle_keeps (P := fun q => q.scheduler.state = p.scheduler.state ∨
    ∃ fault, q.scheduler.state = .halted fault) (Or.inl rfl)
  intro q task due h
  rcases h with same | ⟨fault, halted⟩
  · rw [← same]
    exact q.scheduler.state_perform input task
  · cases (Scheduler.due_of_halted halted).symm.trans due

theorem ending_ne_overflow (p : Progress) : p.ending ≠ .overflow := by
  simp only [ending]
  split <;> simp

theorem debts_settle_le (p : Progress) (input : Input) (limit : Nat) :
    (p.settle input limit).scheduler.instructionDebt ≤ p.scheduler.instructionDebt ∧
      (p.settle input limit).scheduler.timerDebt ≤ p.scheduler.timerDebt := by
  apply settle_keeps (P := fun q => q.scheduler.instructionDebt ≤ p.scheduler.instructionDebt ∧
    q.scheduler.timerDebt ≤ p.scheduler.timerDebt) ⟨Nat.le_refl _, Nat.le_refl _⟩
  rintro q task - ⟨hi, ht⟩
  cases task with
  | cycle =>
    obtain ⟨paid, kept⟩ := q.scheduler.debts_perform_cycle input
    exact ⟨Nat.le_trans (paid ▸ Nat.sub_le _ _) hi, Nat.le_trans (Nat.le_of_eq kept) ht⟩
  | tick => exact ⟨hi, Nat.le_trans (Nat.sub_le _ _) ht⟩

end Progress

namespace Scheduler

variable {s : Scheduler}

theorem settings_spend (s : Scheduler) (input : Input) (time : Nat) :
    (s.spend input time).scheduler.machine.settings = s.machine.settings :=
  Progress.settings_settle { scheduler := s.owe time } input _

theorem Paced.spend (paced : s.Paced) (input : Input) (time : Nat) :
    (s.spend input time).scheduler.Paced :=
  paced.of_settings (s.settings_spend input time)

theorem state_spend (s : Scheduler) (input : Input) (time : Nat) :
    (s.spend input time).scheduler.state = s.state ∨
      ∃ fault, (s.spend input time).scheduler.state = .halted fault :=
  Progress.state_settle { scheduler := s.owe time } input _

theorem overflow_iff {input : Input} {elapsed patience : Nat} :
    (s.advance input elapsed patience).ending = .overflow ↔ s.state = .running ∧
      Time.longest < max (s.instructionDebt + s.accepted elapsed)
        (s.timerDebt + s.accepted elapsed) := by
  cases state : s.state with
  | stopped => simp [advance_of_stopped state]
  | halted fault => simp [advance_of_halted state]
  | running =>
    by_cases fits : s.Fits elapsed
    · rw [advance_of_fits state fits]
      constructor
      · intro h
        exact absurd h (Progress.ending_ne_overflow _)
      · intro h
        exact absurd fits (Nat.not_le.mpr h.2)
    · rw [advance_of_not_fits state fits]
      exact ⟨fun _ => ⟨rfl, Nat.not_le.mp fits⟩, fun _ => rfl⟩

theorem advance_of_overflow {input : Input} {elapsed patience : Nat}
    (h : (s.advance input elapsed patience).ending = .overflow) :
    (s.advance input elapsed patience).scheduler = s := by
  obtain ⟨running, exceeds⟩ := overflow_iff.mp h
  have fits : ¬s.Fits elapsed := Nat.not_le.mpr exceeds
  rw [advance_of_not_fits running fits]

/-- A stretch of time that fits on the debts spends what is accepted of it, and it ends with all
tasks done or with a fault. -/
theorem advance_of_running (paced : s.Paced) (running : s.state = .running) (input : Input)
    (elapsed patience : Nat) (fits : (s.advance input elapsed patience).ending ≠ .overflow) :
    s.advance input elapsed patience =
      { s.spend input (s.accepted elapsed) with
        ending := (s.spend input (s.accepted elapsed)).ending } := by
  have hp : s.advance input elapsed patience =
      (s.owe (s.accepted elapsed)).payOff input patience := by
    by_cases h : s.Fits elapsed
    · exact advance_of_fits running h
    · rw [advance_of_not_fits running h] at fits
      exact absurd rfl fits
  have hs : Progress.settle { scheduler := s.owe (s.accepted elapsed) } input
      ((s.owe (s.accepted elapsed)).workload + patience) =
        s.spend input (s.accepted elapsed) :=
    Progress.settle_eq_settle (p := { scheduler := s.owe (s.accepted elapsed) })
      (paced.owe _) input (Nat.le_add_right _ _) (Nat.le_refl _)
  rw [hp, payOff]
  simp only [hs]

theorem ending_spend (paced : s.Paced) (running : s.state = .running) (input : Input)
    (time : Nat) :
    ((s.spend input time).ending = .done ∧ (s.spend input time).scheduler.state = .running) ∨
      ∃ fault, (s.spend input time).ending = .halted fault ∧
        (s.spend input time).scheduler.state = .halted fault := by
  have hd := due_spend paced input time
  simp only [Progress.ending]
  rw [hd]
  rcases s.state_spend input time with h | ⟨fault, h⟩
  · rw [h, running]
    exact Or.inl ⟨rfl, rfl⟩
  · rw [h]
    exact Or.inr ⟨fault, rfl, rfl⟩

end Scheduler

end Chip8
