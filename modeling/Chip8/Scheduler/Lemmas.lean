import Chip8.Machine
import Chip8.Scheduler

/-! A scheduler step by step: what a task pays back, what an advance comes to, and how a run goes
on after a slice. What every task keeps is kept by all the tasks of an advance. -/

namespace Chip8

namespace Scheduler

variable {s : Scheduler} {task : Task}

theorem stop_eq (s : Scheduler) : s.stop = { s with state := s.stop.state } := by
  unfold stop
  split <;> rfl

theorem resume_eq (s : Scheduler) : s.resume = { s with state := s.resume.state } := by
  unfold resume
  split <;> rfl

theorem stop_of_halted {fault : Fault} (h : s.state = .halted fault) : s.stop = s := by
  simp only [stop, h]

theorem resume_of_halted {fault : Fault} (h : s.state = .halted fault) : s.resume = s := by
  simp only [resume, h]

theorem lag_eq_some_iff {debt period late : Nat} :
    lag debt period = some late ↔ period ≤ debt ∧ late = debt - period := by
  unfold lag
  split
  · simp [*, eq_comm]
  · simp [*]

theorem running_of_due (h : s.due = some task) : s.state = .running := by
  simp only [due] at h
  split at h
  · assumption
  · cases h

theorem due_of_halted {fault : Fault} (h : s.state = .halted fault) : s.due = none := by
  simp only [due, h]

theorem le_debt_of_due (h : s.due = some task) :
    match task with
    | .cycle => s.instructionPeriod ≤ s.instructionDebt
    | .tick => s.timerPeriod ≤ s.timerDebt := by
  unfold due at h
  split at h
  · split at h
    · cases h
    · cases h
      exact (lag_eq_some_iff.mp ‹lag s.timerDebt s.timerPeriod = _›).1
    · cases h
      exact (lag_eq_some_iff.mp ‹lag s.instructionDebt s.instructionPeriod = _›).1
    · split at h <;> cases h
      · exact (lag_eq_some_iff.mp ‹lag s.timerDebt s.timerPeriod = _›).1
      · exact (lag_eq_some_iff.mp ‹lag s.instructionDebt s.instructionPeriod = _›).1
  · cases h

theorem settings_perform (s : Scheduler) (input : Input) (task : Task) :
    (s.perform input task).after.machine.settings = s.machine.settings := by
  cases task with
  | tick => rfl
  | cycle =>
    unfold perform cycle afterFault
    have := s.machine.settings_step input
    simp only
    split
    · exact this
    · split <;> exact this

theorem debts_perform_cycle (s : Scheduler) (input : Input) :
    (s.perform input .cycle).after.instructionDebt = s.instructionDebt - s.instructionPeriod ∧
      (s.perform input .cycle).after.timerDebt = s.timerDebt := by
  unfold perform cycle afterFault
  simp only
  split
  · exact ⟨rfl, rfl⟩
  · split <;> exact ⟨rfl, rfl⟩

theorem debts_perform_tick (s : Scheduler) (input : Input) :
    (s.perform input .tick).after.instructionDebt = s.instructionDebt ∧
      (s.perform input .tick).after.timerDebt = s.timerDebt - s.timerPeriod :=
  ⟨rfl, rfl⟩

theorem instructionPeriod_perform (s : Scheduler) (input : Input) (task : Task) :
    (s.perform input task).after.instructionPeriod = s.instructionPeriod := by
  unfold instructionPeriod
  rw [settings_perform]

theorem timerPeriod_perform (s : Scheduler) (input : Input) (task : Task) :
    (s.perform input task).after.timerPeriod = s.timerPeriod := by
  unfold timerPeriod
  rw [settings_perform]

theorem workload_perform (input : Input) (h : s.due = some task)
    (instructions : 0 < s.instructionPeriod) (timers : 0 < s.timerPeriod) :
    (s.perform input task).after.workload + 1 = s.workload := by
  have late := le_debt_of_due h
  unfold workload
  rw [instructionPeriod_perform, timerPeriod_perform]
  cases task with
  | cycle =>
    obtain ⟨paid, kept⟩ := s.debts_perform_cycle input
    rw [paid, kept, Nat.div_eq_sub_div instructions late]
    omega
  | tick =>
    obtain ⟨kept, paid⟩ := s.debts_perform_tick input
    rw [paid, kept, Nat.div_eq_sub_div timers late]
    omega

end Scheduler

namespace Progress

variable {p : Progress} {input : Input}

theorem settle_of_idle (h : p.scheduler.due = none) (input : Input) (limit : Nat) :
    p.settle input limit = p := by
  cases limit with
  | zero => rfl
  | succ limit => simp only [settle, h]

theorem settle_of_due {task : Task} (h : p.scheduler.due = some task) (input : Input)
    (limit : Nat) : p.settle input (limit + 1) = (p.perform input task).settle input limit := by
  simp only [settle, h]

theorem performed_perform (p : Progress) (input : Input) (task : Task) :
    (p.perform input task).performed.toList = p.performed.toList ++ [task] := Array.toList_push

theorem settle_keeps {P : Progress → Prop} (h : P p)
    (perform : ∀ p task, p.scheduler.due = some task → P p → P (p.perform input task))
    (limit : Nat) : P (p.settle input limit) := by
  induction limit generalizing p with
  | zero => exact h
  | succ limit ih =>
    cases due : p.scheduler.due with
    | none => rwa [settle_of_idle due]
    | some task =>
      rw [settle_of_due due]
      exact ih (perform p task due h)

theorem due_settle (p : Progress) (input : Input) (limit : Nat)
    (instructions : 0 < p.scheduler.instructionPeriod) (timers : 0 < p.scheduler.timerPeriod)
    (enough : p.scheduler.workload ≤ limit) :
    (p.settle input limit).scheduler.due = none := by
  induction limit generalizing p with
  | zero =>
    cases due : p.scheduler.due with
    | none => exact due
    | some task =>
      have := Scheduler.workload_perform input due instructions timers
      omega
  | succ limit ih =>
    cases due : p.scheduler.due with
    | none => rwa [settle_of_idle due]
    | some task =>
      have fewer := Scheduler.workload_perform input due instructions timers
      rw [settle_of_due due]
      apply ih
      · exact (p.scheduler.instructionPeriod_perform input task).symm ▸ instructions
      · exact (p.scheduler.timerPeriod_perform input task).symm ▸ timers
      · change (p.scheduler.perform input task).after.workload ≤ limit
        omega

end Progress

namespace Scheduler

variable {s : Scheduler} {input : Input} {elapsed patience : Nat}

theorem advance_of_halted {fault : Fault} (h : s.state = .halted fault) (input : Input)
    (elapsed patience : Nat) :
    s.advance input elapsed patience = { scheduler := s, ending := .halted fault } := by
  simp [advance, h]

theorem advance_of_stopped (h : s.state = .stopped) (input : Input) (elapsed patience : Nat) :
    s.advance input elapsed patience = { scheduler := s, ending := .done } := by
  simp [advance, h]

def Fits (s : Scheduler) (elapsed : Nat) : Prop :=
  max (s.owe (s.accepted elapsed)).instructionDebt (s.owe (s.accepted elapsed)).timerDebt ≤
    Time.longest

instance (s : Scheduler) (elapsed : Nat) : Decidable (s.Fits elapsed) :=
  inferInstanceAs (Decidable (_ ≤ _))

theorem advance_of_fits (running : s.state = .running) (fits : s.Fits elapsed) :
    s.advance input elapsed patience = (s.owe (s.accepted elapsed)).payOff input patience := by
  simp only [advance, running]
  exact if_pos fits

theorem advance_of_not_fits (running : s.state = .running) (fits : ¬s.Fits elapsed) :
    s.advance input elapsed patience = { scheduler := s, ending := .overflow } := by
  simp only [advance, running]
  exact if_neg fits

/-- An advance comes to nothing, or it puts time on the debts and performs what is due. -/
theorem advance_keeps {P : Progress → Prop}
    (idle : ¬(s.state = .running ∧ s.Fits elapsed) → P { scheduler := s })
    (owing : s.state = .running → s.Fits elapsed → P { scheduler := s.owe (s.accepted elapsed) })
    (perform : ∀ p task, p.scheduler.due = some task → P p → P (p.perform input task)) :
    P (s.advance input elapsed patience).toProgress := by
  cases state : s.state with
  | halted fault =>
    rw [advance_of_halted state]
    exact idle (by simp [state])
  | stopped =>
    rw [advance_of_stopped state]
    exact idle (by simp [state])
  | running =>
    by_cases fits : s.Fits elapsed
    · rw [advance_of_fits state fits]
      exact Progress.settle_keeps (owing state fits) perform _
    · rw [advance_of_not_fits state fits]
      exact idle (by simp [fits])

end Scheduler

namespace Run

variable {r : Run} {input : Input} {patience slice : Nat}

theorem go_cons_of_done (h : (r.scheduler.advance input slice patience).ending = .done)
    (rest : List Nat) :
    r.go input patience (slice :: rest) =
      { r with
        scheduler := (r.scheduler.advance input slice patience).scheduler
        frames := r.frames.push (r.scheduler.advance input slice patience).scheduler.screen
        log := r.log ++ (r.scheduler.advance input slice patience).log
      }.go input patience rest := by
  simp only [go, h]

theorem go_cons_of_broken (h : (r.scheduler.advance input slice patience).ending ≠ .done)
    (rest : List Nat) :
    r.go input patience (slice :: rest) =
      { r with
        scheduler := (r.scheduler.advance input slice patience).scheduler
        log := r.log ++ (r.scheduler.advance input slice patience).log
        ending := (r.scheduler.advance input slice patience).ending } := by
  simp only [go]

theorem finish_of_done (h : r.ending = .done) :
    r.finish = { r with scheduler := r.scheduler.stop, log := r.log.push .stopRequested } := by
  simp only [finish, h]

theorem finish_of_broken (h : r.ending ≠ .done) : r.finish = r := by
  simp only [finish]

end Run

end Chip8
