import Mathlib.Data.List.Induction
import Chip8.Proofs.Cycle
import Chip8.Proofs.Settling

/-! A list of tasks on the bare machine, and what a scheduler has made of it: it has performed the
whole list, or the part up to the first cycle that ended in a fatal fault. Whatever else a host does
with a scheduler, the machine in it has obeyed some commands, and that is all that has happened to
it. -/

namespace Chip8

/-- What holds at the beginning of a run, and is kept by each of its entries in turn, holds at its
end. Of an entry one knows that it stands in the run right behind those before it. -/
@[elab_as_elim]
theorem prefix_induction {α : Type} {motive : List α → Prop} (run : List α) (start : motive [])
    (keep : ∀ before entry, before ++ [entry] <+: run → motive before →
      motive (before ++ [entry])) : motive run := by
  induction run using List.reverseRecOn with
  | nil => exact start
  | append_singleton earlier last ih =>
    apply keep earlier last (List.prefix_refl _)
    apply ih
    intro before entry listed
    exact keep before entry (listed.trans (List.prefix_append _ _))

namespace Machine

def perform (m : Machine) (input : Input) : Task → Outcome Machine
  | .cycle => m.step input
  | .tick => .ok m.tick

def follow (m : Machine) (input : Input) (tasks : List Task) : Machine :=
  tasks.foldl (fun m task => (m.perform input task).after) m

/-- No task of the list ends in a fatal fault. A word that is not known is no such fault. -/
def Survives (m : Machine) (input : Input) (tasks : List Task) : Prop :=
  ∀ before task, before ++ [task] <+: tasks → ∀ fault,
    ((m.follow input before).perform input task).fault = some fault → fault.isFatal = false

def next? (m : Machine) : Option Instruction :=
  match m.fetch with
  | .ok word => (Instruction.ofWord word).toOption
  | .error _ => none

def executed (m : Machine) (input : Input) : List Task → List Instruction
  | [] => []
  | .tick :: rest => m.tick.executed input rest
  | .cycle :: rest => m.next?.toList ++ (m.step input).after.executed input rest

def outcomes (m : Machine) (input : Input) : List Task → List (Outcome Machine)
  | [] => []
  | task :: rest => m.perform input task :: (m.perform input task).after.outcomes input rest

theorem next?_eq_some_iff {m : Machine} {i : Instruction} :
    m.next? = some i ↔ m.Executes i := by
  simp only [next?, Executes]
  cases m.fetch with
  | error fault => simp
  | ok word => cases hw : Instruction.ofWord word <;> simp [Except.toOption, hw]

theorem follow_append (m : Machine) (input : Input) (before after : List Task) :
    m.follow input (before ++ after) = (m.follow input before).follow input after :=
  List.foldl_append

theorem follow_concat (m : Machine) (input : Input) (tasks : List Task) (task : Task) :
    m.follow input (tasks ++ [task]) = ((m.follow input tasks).perform input task).after := by
  simp [follow]

theorem survives_nil (m : Machine) (input : Input) : m.Survives input [] := by
  intro before task h
  simp at h

theorem survives_concat {m : Machine} {input : Input} {tasks : List Task} {task : Task}
    (h : m.Survives input tasks)
    (ht : ∀ fault, ((m.follow input tasks).perform input task).fault = some fault →
      fault.isFatal = false) : m.Survives input (tasks ++ [task]) := by
  intro before next hb
  rcases List.prefix_concat_iff.mp hb with he | hb
  · obtain ⟨rfl, hn⟩ := List.append_inj' he rfl
    obtain rfl := List.singleton_inj.mp hn
    exact ht
  · exact h before next hb

end Machine

namespace Scheduler

theorem machine_perform (s : Scheduler) (input : Input) (task : Task) :
    (s.perform input task).after.machine = (s.machine.perform input task).after := by
  cases task with
  | tick => rfl
  | cycle => rw [after_cycle]; rfl

theorem state_perform_of_survived {s : Scheduler} {input : Input} {task : Task}
    (h : ∀ fault, (s.machine.perform input task).fault = some fault → fault.isFatal = false) :
    (s.perform input task).after.state = s.state := by
  cases task with
  | tick => rfl
  | cycle =>
    change ∀ fault, (s.machine.step input).fault = some fault → fault.isFatal = false at h
    rw [after_cycle]
    cases hf : (s.machine.step input).fault with
    | none => rfl
    | some fault => simp [RunState.after, h fault hf]

theorem state_perform_of_fatal {s : Scheduler} {input : Input} {fault : Fault}
    (h : (s.machine.step input).fault = some fault) (hf : fault.isFatal = true) :
    (s.perform input .cycle).after.state = .halted fault := by
  simp [after_cycle, RunState.after, h, hf]

end Scheduler

/-- What `tasks` have come to on a scheduler around `m`: all of them have been performed and the
machine runs, or a cycle among them ended in a fatal fault and was the last one performed. -/
inductive Course (m : Machine) (input : Input) (tasks : List Task) (p : Progress) : Prop where
  | whole (performed : p.performed.toList = tasks) (survived : m.Survives input tasks)
      (machine : p.scheduler.machine = m.follow input tasks)
      (state : p.scheduler.state = .running)
  | cut (before : List Task) (fault : Fault) (listed : before ++ [.cycle] <+: tasks)
      (performed : p.performed.toList = before ++ [.cycle])
      (survived : m.Survives input before)
      (faulted : ((m.follow input before).step input).fault = some fault)
      (fatal : fault.isFatal = true)
      (machine : p.scheduler.machine = m.follow input (before ++ [.cycle]))
      (state : p.scheduler.state = .halted fault)

namespace Course

variable {m : Machine} {input : Input} {tasks : List Task} {p q : Progress}

/-- Debts and the log do not count. -/
theorem congr (h : Course m input tasks p) (hm : q.scheduler.machine = p.scheduler.machine)
    (hs : q.scheduler.state = p.scheduler.state)
    (hp : q.performed = p.performed) : Course m input tasks q := by
  cases h with
  | whole performed survived machine state =>
    exact .whole (hp ▸ performed) survived (hm.trans machine) (hs.trans state)
  | cut before fault listed performed survived faulted fatal machine state =>
    exact .cut before fault listed (hp ▸ performed) survived faulted fatal (hm.trans machine)
      (hs.trans state)

theorem perform (h : Course m input tasks p) (running : p.scheduler.state = .running)
    (task : Task) : Course m input (tasks ++ [task]) (p.perform input task) := by
  cases h with
  | cut before fault listed performed survived faulted fatal machine state =>
    rw [running] at state
    cases state
  | whole performed survived machine state =>
    have hm : (p.perform input task).scheduler.machine = m.follow input (tasks ++ [task]) := by
      rw [m.follow_concat, ← machine]
      exact p.scheduler.machine_perform input task
    have hp : (p.perform input task).performed.toList = tasks ++ [task] := by
      rw [← performed]
      exact Array.toList_push
    by_cases hf : ∃ fault, ((m.follow input tasks).perform input task).fault = some fault ∧
        fault.isFatal = true
    · obtain ⟨fault, faulted, fatal⟩ := hf
      cases task with
      | tick => cases faulted
      | cycle =>
        refine .cut tasks fault (List.prefix_refl _) hp survived faulted fatal hm ?_
        exact Scheduler.state_perform_of_fatal (machine ▸ faulted) fatal
    · have hs : ∀ fault, ((m.follow input tasks).perform input task).fault = some fault →
          fault.isFatal = false := by
        intro fault he
        exact Bool.eq_false_iff.mpr fun fatal => hf ⟨fault, he, fatal⟩
      refine .whole hp (Machine.survives_concat survived hs) hm ?_
      exact (Scheduler.state_perform_of_survived (machine ▸ hs)).trans running

theorem append_of_halted (h : Course m input tasks p) {fault : Fault}
    (halted : p.scheduler.state = .halted fault) (more : List Task) :
    Course m input (tasks ++ more) p := by
  cases h with
  | whole performed survived machine state =>
    rw [halted] at state
    cases state
  | cut before fault listed performed survived faulted fatal machine state =>
    exact .cut before fault (listed.trans (List.prefix_append _ _)) performed survived faulted
      fatal machine state

/-- Whatever is due, what has been performed goes as on the bare machine. -/
theorem settle (h : Course m input p.performed.toList p) (limit : Nat) :
    Course m input (p.settle input limit).performed.toList (p.settle input limit) := by
  apply Progress.settle_keeps (P := fun p => Course m input p.performed.toList p) h
  intro p task due h
  rw [Progress.performed_perform]
  exact h.perform (Scheduler.running_of_due due) task

theorem performed_of_fatal (h : Course m input p.performed.toList p) {fault : Fault}
    {before : List Task} (listed : before ++ [.cycle] <+: p.performed.toList)
    (faulted : ((m.follow input before).step input).fault = some fault)
    (fatal : fault.isFatal = true) : p.performed.toList = before ++ [.cycle] := by
  cases h with
  | whole _ survived _ _ =>
    cases (survived before .cycle listed fault faulted).symm.trans fatal
  | cut first other _ performed survived _ _ _ _ =>
    rw [performed] at listed ⊢
    rcases List.prefix_concat_iff.mp listed with same | earlier
    · exact same.symm
    · cases (survived before .cycle earlier fault faulted).symm.trans fatal

theorem halted_iff (h : Course m input p.performed.toList p) {fault : Fault} :
    p.scheduler.state = .halted fault ↔ ∃ before, before ++ [.cycle] <+: p.performed.toList ∧
      ((m.follow input before).step input).fault = some fault ∧ fault.isFatal = true := by
  constructor
  · intro halted
    cases h with
    | whole performed survived machine state =>
      rw [halted] at state
      cases state
    | cut before other listed performed survived faulted fatal machine state =>
      obtain rfl := RunState.halted.inj (halted.symm.trans state)
      exact ⟨before, listed, faulted, fatal⟩
  · rintro ⟨before, listed, faulted, fatal⟩
    have last := h.performed_of_fatal listed faulted fatal
    cases h with
    | whole performed survived machine state =>
      have harmless := survived before .cycle listed fault faulted
      rw [harmless] at fatal
      cases fatal
    | cut first other _ performed survived faulted' fatal' machine state =>
      obtain ⟨rfl, -⟩ := List.append_inj' (performed.symm.trans last) rfl
      obtain rfl := Option.some.inj (faulted.symm.trans faulted')
      exact state

theorem machine_eq (h : Course m input tasks p) :
    p.scheduler.machine = m.follow input p.performed.toList := by
  cases h with
  | whole performed _ machine => rw [machine, performed]
  | cut before fault _ performed _ _ _ machine => rw [machine, performed]

theorem running_or_halted (h : Course m input tasks p) :
    p.scheduler.state = .running ∨ ∃ fault, p.scheduler.state = .halted fault := by
  cases h with
  | whole _ _ _ state => exact Or.inl state
  | cut _ fault _ _ _ _ _ _ state => exact Or.inr ⟨fault, state⟩

end Course

namespace Scheduler

theorem course_advance {s : Scheduler} (running : s.state = .running) (input : Input)
    {elapsed : Nat} (fits : s.Fits elapsed) (patience : Nat) :
    Course s.machine input (s.advance input elapsed patience).performed.toList
      (s.advance input elapsed patience).toProgress := by
  rw [advance_of_fits running fits]
  apply Course.settle
  exact .whole rfl (s.machine.survives_nil input) rfl running

theorem idle_or_course (s : Scheduler) (input : Input) (elapsed patience : Nat) :
    (s.advance input elapsed patience).toProgress = { scheduler := s } ∨
      s.state = .running ∧ Course s.machine input
        (s.advance input elapsed patience).performed.toList
        (s.advance input elapsed patience).toProgress := by
  cases state : s.state with
  | halted fault => exact .inl (by rw [advance_of_halted state])
  | stopped => exact .inl (by rw [advance_of_stopped state])
  | running =>
    by_cases fits : s.Fits elapsed
    · exact .inr ⟨rfl, course_advance state input fits patience⟩
    · exact .inl (by rw [advance_of_not_fits state fits])

end Scheduler

def Task.command : Task → Machine.Command
  | cycle => .step
  | tick => .tick

namespace Machine

variable {m : Machine} {input : Input}

def obeyAll (m : Machine) (input : Input) (commands : List Command) : Machine :=
  commands.foldl (fun m command => (m.obey input command).after) m

theorem obeyAll_append (m : Machine) (input : Input) (before after : List Command) :
    m.obeyAll input (before ++ after) = (m.obeyAll input before).obeyAll input after :=
  List.foldl_append

theorem obeyAll_concat (m : Machine) (input : Input) (before : List Command) (command : Command) :
    m.obeyAll input (before ++ [command]) = ((m.obeyAll input before).obey input command).after :=
  m.obeyAll_append input before [command]

theorem obey_command (m : Machine) (input : Input) (task : Task) :
    m.obey input task.command = m.perform input task := by
  cases task <;> rfl

theorem obeyAll_map_command (m : Machine) (input : Input) (tasks : List Task) :
    m.obeyAll input (tasks.map Task.command) = m.follow input tasks := by
  simp only [obeyAll, follow, List.foldl_map, obey_command]

end Machine

namespace Scheduler

variable {s : Scheduler} {input : Input} {patience : Nat}

def tasks (s : Scheduler) (input : Input) (patience : Nat) (operation : Operation) : List Task :=
  (s.events input patience operation).filterMap Event.task?

def commands (s : Scheduler) (input : Input) (patience : Nat) :
    Operation → List Machine.Command
  | .reset rom entropy => [.reset rom entropy]
  | .machine command => [command]
  | operation => (s.tasks input patience operation).map Task.command

theorem machine_stop (s : Scheduler) : s.stop.machine = s.machine := by
  rw [stop_eq]

theorem machine_resume (s : Scheduler) : s.resume.machine = s.machine := by
  rw [resume_eq]

theorem machine_reset (s : Scheduler) (rom : Rom) (entropy : ChaCha.Key) :
    (s.reset rom entropy).after.machine = (s.machine.reset rom entropy).after ∧
      (s.reset rom entropy).fault = (s.machine.reset rom entropy).fault := by
  simp only [reset, Machine.reset]
  cases Memory.ofRom rom <;> exact ⟨rfl, rfl⟩

theorem machine_undergo (s : Scheduler) (input : Input) (event : Event) :
    (s.undergo input event).after.machine = s.machine.follow input event.task?.toList := by
  cases event with
  | performed task => exact s.machine_perform input task
  | owed time => rfl
  | stopped | signalled => exact s.machine_stop
  | resumed => exact s.machine_resume

/-- Nothing but the tasks among the events gets to the machine. -/
theorem Trace.machine {t : Scheduler} {events : List Event} {log : List LogEntry}
    (h : Trace input s t events log) :
    t.machine = s.machine.follow input (events.filterMap Event.task?) := by
  induction h with
  | start => rfl
  | @next t events _ event _ _ ih =>
    rw [machine_undergo, ih, List.filterMap_append, Machine.follow_append]
    cases event <;> rfl

theorem filterMap_task?_lapse (s : Scheduler) (input : Input) (patience elapsed : Nat) :
    (s.lapse input patience elapsed).filterMap Event.task? =
      (s.advance input elapsed patience).performed.toList := by
  rw [lapse, List.filterMap_cons_none rfl, Event.filterMap_task?_map_performed]

theorem machine_advance (s : Scheduler) (input : Input) (elapsed patience : Nat) :
    (s.advance input elapsed patience).scheduler.machine =
      s.machine.follow input (s.advance input elapsed patience).performed.toList := by
  rw [← filterMap_task?_lapse]
  exact (s.trace_advance input elapsed patience).machine

theorem machine_operate (s : Scheduler) (input : Input) (patience : Nat)
    (operation : Operation) :
    (s.operate input patience operation).scheduler.machine =
      s.machine.obeyAll input (s.commands input patience operation) := by
  cases operation with
  | reset rom entropy => exact (s.machine_reset rom entropy).1
  | machine command => rfl
  | advance | stop | resume | run =>
    simp only [commands, Machine.obeyAll_map_command]
    exact (s.trace_operate input patience rfl).machine

end Scheduler

end Chip8
