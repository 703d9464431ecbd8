import Chip8.Proofs.Reachable

/-! Operations taken apart. All that time does to a scheduler, and the host that stops and resumes
it, comes down to a row of small events, so what every event keeps is kept by every operation. -/

namespace Chip8

inductive Event where
  | owed (time : Nat)
  | performed (task : Task)
  | stopped
  /-- The stop signal, at the end of a run. -/
  | signalled
  | resumed
  deriving DecidableEq, Repr

namespace Event

def task? : Event → Option Task
  | performed task => some task
  | _ => none

theorem filterMap_task?_map_performed (tasks : List Task) :
    (tasks.map performed).filterMap task? = tasks := by
  simp [List.filterMap_map, Function.comp_def, task?]

end Event

namespace Scheduler

variable {s t u : Scheduler} {input : Input}

def undergo (s : Scheduler) (input : Input) : Event → Outcome Scheduler
  | .owed time => .ok (s.owe time)
  | .performed task => s.perform input task
  | .stopped => .ok s.stop
  | .signalled => { after := s.stop, log := #[.stopRequested] }
  | .resumed => .ok s.resume

def Admits (s : Scheduler) : Event → Prop
  | .performed task => s.due = some task
  | _ => True

/-- The events lead from one scheduler to another, and write these lines to the log. -/
inductive Trace (input : Input) (s : Scheduler) :
    Scheduler → List Event → List LogEntry → Prop where
  | start : Trace input s s [] []
  | next {t : Scheduler} {events : List Event} {log : List LogEntry} (event : Event)
      (h : Trace input s t events log) (admitted : t.Admits event) :
      Trace input s (t.undergo input event).after (events ++ [event])
        (log ++ (t.undergo input event).log.toList)

theorem Trace.trans {before after : List Event} {log more : List LogEntry}
    (first : Trace input s t before log) (second : Trace input t u after more) :
    Trace input s u (before ++ after) (log ++ more) := by
  induction second with
  | start => simpa using first
  | next event _ admitted ih =>
    rw [← List.append_assoc, ← List.append_assoc]
    exact .next event ih admitted

/-- What an advance puts on the debts. Only a running scheduler takes on time, and none that does
not fit. -/
def taken (s : Scheduler) (elapsed : Nat) : Nat :=
  if s.state = .running ∧ s.Fits elapsed then s.accepted elapsed else 0

def lapse (s : Scheduler) (input : Input) (patience elapsed : Nat) : List Event :=
  .owed (s.taken elapsed) :: (s.advance input elapsed patience).performed.toList.map .performed

/-- The events of a run from its first slice on. The signal is only met when all slices are over. -/
def lapses (s : Scheduler) (input : Input) (patience : Nat) : List Nat → List Event
  | [] => [.signalled]
  | slice :: rest =>
    let stretch := s.advance input slice patience
    match stretch.ending with
    | .done => s.lapse input patience slice ++ stretch.scheduler.lapses input patience rest
    | _ => s.lapse input patience slice

def events (s : Scheduler) (input : Input) (patience : Nat) : Operation → List Event
  | .advance elapsed => s.lapse input patience elapsed
  | .stop => [.stopped]
  | .resume => [.resumed]
  | .run slices => .resumed :: s.resume.lapses input patience slices
  | .reset _ _ | .machine _ => []

def Operation.drives : Operation → Bool
  | .reset _ _ | .machine _ => false
  | _ => true

theorem taken_of_fits (running : s.state = .running) {elapsed : Nat} (fits : s.Fits elapsed) :
    s.taken elapsed = s.accepted elapsed := if_pos ⟨running, fits⟩

theorem trace_advance (s : Scheduler) (input : Input) (elapsed patience : Nat) :
    Trace input s (s.advance input elapsed patience).scheduler (s.lapse input patience elapsed)
      (s.advance input elapsed patience).log.toList := by
  apply advance_keeps (P := fun p => Trace input s p.scheduler
    (.owed (s.taken elapsed) :: p.performed.toList.map .performed) p.log.toList)
  · intro idle
    rw [taken, if_neg idle]
    exact .next (.owed 0) .start trivial
  · intro running fits
    rw [taken_of_fits running fits]
    exact .next (.owed _) .start trivial
  · intro p task due h
    have next := h.next (.performed task) due
    simpa [Progress.perform, undergo] using next

end Scheduler

namespace Run

open Scheduler

theorem trace_go {s : Scheduler} {input : Input} {events : List Event} {r : Run}
    (h : Trace input s r.scheduler events r.log.toList) (unbroken : r.ending = .done)
    (patience : Nat) (slices : List Nat) :
    Trace input s (r.go input patience slices).finish.scheduler
      (events ++ r.scheduler.lapses input patience slices)
      (r.go input patience slices).finish.log.toList := by
  induction slices generalizing r events with
  | nil =>
    rw [go, finish_of_done unbroken, Array.toList_push]
    exact h.next .signalled trivial
  | cons slice rest ih =>
    have first := h.trans (r.scheduler.trace_advance input slice patience)
    let log := (r.scheduler.advance input slice patience).log
    have written : r.log.toList ++ log.toList = (r.log ++ log).toList := Array.toList_append.symm
    rw [written] at first
    by_cases done : (r.scheduler.advance input slice patience).ending = .done
    · rw [go_cons_of_done done]
      simp only [lapses, done, ← List.append_assoc]
      exact ih first unbroken
    · rw [go_cons_of_broken done, finish_of_broken done]
      simp only [lapses]
      exact first

end Run

namespace Scheduler

variable {s : Scheduler} {input : Input} {patience : Nat}

theorem trace_operate (s : Scheduler) (input : Input) (patience : Nat) {operation : Operation}
    (driven : operation.drives = true) :
    Trace input s (s.operate input patience operation).scheduler
      (s.events input patience operation) (s.operate input patience operation).log.toList := by
  cases operation with
  | advance elapsed => exact s.trace_advance input elapsed patience
  | stop => exact .next .stopped .start trivial
  | resume => exact .next .resumed .start trivial
  | run slices =>
    have resumed : Trace input s s.resume [.resumed] [] := .next .resumed .start trivial
    exact Run.trace_go (r := { scheduler := s.resume }) resumed rfl patience slices
  | reset | machine => cases driven

/-- What advances, stops and resumes keep is kept by a run. -/
theorem operate_keeps {P : Scheduler → Prop}
    (advance : ∀ s elapsed, P s → P (s.advance input elapsed patience).scheduler)
    (stop : ∀ s, P s → P s.stop) (resume : ∀ s, P s → P s.resume)
    (reset : ∀ s rom entropy, P s → P (s.reset rom entropy).after)
    (machine : ∀ s command, P s → P { s with machine := (s.machine.obey input command).after })
    (h : P s) (operation : Operation) : P (s.operate input patience operation).scheduler := by
  cases operation with
  | advance elapsed => exact advance s elapsed h
  | stop => exact stop s h
  | resume => exact resume s h
  | reset rom entropy => exact reset s rom entropy h
  | machine command => exact machine s command h
  | run slices =>
    have going (r : Run) : P r.scheduler → P (r.go input patience slices).scheduler := by
      induction slices generalizing r with
      | nil => exact id
      | cons slice rest ih =>
        intro before
        have after := advance r.scheduler slice before
        by_cases done : (r.scheduler.advance input slice patience).ending = .done
        · rw [Run.go_cons_of_done done]
          exact ih _ after
        · rw [Run.go_cons_of_broken done]
          exact after
    have gone := going { scheduler := s.resume } (resume s h)
    change P (Run.finish _).scheduler
    by_cases done : (Run.go { scheduler := s.resume } input patience slices).ending = .done
    · rw [Run.finish_of_done done]
      exact stop _ gone
    · rwa [Run.finish_of_broken done]

theorem settings_stop (s : Scheduler) : s.stop.machine.settings = s.machine.settings := by
  rw [stop_eq]

theorem settings_resume (s : Scheduler) : s.resume.machine.settings = s.machine.settings := by
  rw [resume_eq]

theorem settings_reset (s : Scheduler) (rom : Rom) (entropy : ChaCha.Key) :
    (s.reset rom entropy).after.machine.settings = s.machine.settings := by
  simp only [reset]
  split
  · exact Machine.settings_reset s.machine rom entropy
  · rfl

theorem settings_undergo (s : Scheduler) (input : Input) (event : Event) :
    (s.undergo input event).after.machine.settings = s.machine.settings := by
  cases event with
  | owed time => rfl
  | performed task => exact s.settings_perform input task
  | stopped | signalled => exact s.settings_stop
  | resumed => exact s.settings_resume

theorem Trace.settings {t : Scheduler} {events : List Event} {log : List LogEntry}
    (h : Trace input s t events log) : t.machine.settings = s.machine.settings := by
  induction h with
  | start => rfl
  | next event _ _ ih => exact (settings_undergo _ input event).trans ih

theorem settings_advance (s : Scheduler) (input : Input) (elapsed patience : Nat) :
    (s.advance input elapsed patience).scheduler.machine.settings = s.machine.settings :=
  (s.trace_advance input elapsed patience).settings

theorem settings_operate (s : Scheduler) (input : Input) (patience : Nat)
    (operation : Operation) :
    (s.operate input patience operation).scheduler.machine.settings = s.machine.settings := by
  cases operation with
  | reset rom entropy => exact s.settings_reset rom entropy
  | machine command => exact s.machine.settings_obey input command
  | _ => exact (s.trace_operate input patience rfl).settings

theorem Reachable.settings_eq {settings : Settings} {s : Scheduler}
    (h : Reachable settings s) : s.machine.settings = settings := by
  induction h with
  | fresh h => exact h.settings_eq
  | operate input patience operation _ ih =>
    exact (settings_operate _ input patience operation).trans ih

end Scheduler

end Chip8
