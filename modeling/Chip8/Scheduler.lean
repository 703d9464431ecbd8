import Chip8.Machine

/-! A machine in time. Time that has passed is owed to the machine twice, once as instruction
cycles and once as timer ticks, and each cycle or tick pays back one period. A run keeps a machine
going slice by slice until it is asked to stop. -/

namespace Chip8

inductive RunState where
  | running
  /-- Stopped by the host, which can also resume. -/
  | stopped
  /-- Ended by a fault; only another program gets out of here. -/
  | halted (fault : Fault)
  deriving DecidableEq, Repr

inductive Task where
  | cycle
  | tick
  deriving DecidableEq, Repr

structure Scheduler where
  machine : Machine
  /-- Time that has passed and was not yet spent on cycles. -/
  instructionDebt : Nat := 0
  /-- Time that has passed and was not yet spent on ticks. -/
  timerDebt : Nat := 0
  state : RunState := .running
  deriving DecidableEq

namespace Scheduler

def instructionPeriod (s : Scheduler) : Nat := s.machine.settings.instructionPeriod

def timerPeriod (s : Scheduler) : Nat := s.machine.settings.timerPeriod

def screen (s : Scheduler) : Screen := s.machine.screen

def stop (s : Scheduler) : Scheduler :=
  match s.state with
  | .running => { s with state := .stopped }
  | _ => s

def resume (s : Scheduler) : Scheduler :=
  match s.state with
  | .stopped => { s with state := .running }
  | _ => s

def reset (s : Scheduler) (rom : Rom) (entropy : ChaCha.Key) : Outcome Scheduler :=
  let restarted := s.machine.reset rom entropy
  match restarted.fault with
  | none => { after := { machine := restarted.after }, log := restarted.log.push .restarted }
  | some fault => { after := s, fault := some fault, log := restarted.log }

def lag (debt period : Nat) : Option Nat :=
  if period ≤ debt then some (debt - period) else none

/-- The next task: of two that are due the one that has been due for longer, and the tick if
both were due at the same time. -/
def due (s : Scheduler) : Option Task :=
  match s.state with
  | .running =>
    match lag s.instructionDebt s.instructionPeriod, lag s.timerDebt s.timerPeriod with
    | none, none => none
    | none, some _ => some .tick
    | some _, none => some .cycle
    | some cycle, some tick => if cycle ≤ tick then some .tick else some .cycle
  | _ => none

def afterFault (s : Scheduler) (fault : Fault) : Outcome Scheduler :=
  if fault.isFatal then
    { after := { s with state := .halted fault }, fault := some fault, log := #[.halted fault] }
  else { after := s, log := #[.continued fault s.machine.pc] }

def cycle (s : Scheduler) (input : Input) : Outcome Scheduler :=
  let stepped := s.machine.step input
  let paid := { s with
    machine := stepped.after
    instructionDebt := s.instructionDebt - s.instructionPeriod }
  match stepped.fault with
  | none => { after := paid, log := stepped.log }
  | some fault =>
    let outcome := paid.afterFault fault
    { outcome with log := stepped.log ++ outcome.log }

def tick (s : Scheduler) : Scheduler :=
  { s with machine := s.machine.tick, timerDebt := s.timerDebt - s.timerPeriod }

def perform (s : Scheduler) (input : Input) : Task → Outcome Scheduler
  | .cycle => s.cycle input
  | .tick => .ok s.tick

end Scheduler

inductive Ending where
  /-- Nothing is due any more. -/
  | done
  /-- The machine is halted, from now on or since before. -/
  | halted (fault : Fault)
  /-- The time does not fit on top of a debt. -/
  | overflow
  /-- Work is still due, and always will be: some period is zero. -/
  | unfinished
  deriving DecidableEq, Repr

namespace Ending

def fault? : Ending → Option Fault
  | halted fault => some fault
  | _ => none

def breakdown? : Ending → Option String
  | overflow => some "overflow when adding durations"
  | unfinished => some "the work that is due never ends"
  | _ => none

end Ending

structure Progress where
  scheduler : Scheduler
  performed : Array Task := #[]
  log : Log := #[]

namespace Progress

def perform (p : Progress) (input : Input) (task : Task) : Progress :=
  let outcome := p.scheduler.perform input task
  { scheduler := outcome.after
    performed := p.performed.push task
    log := p.log ++ outcome.log }

def settle (p : Progress) (input : Input) : Nat → Progress
  | 0 => p
  | limit + 1 =>
    match p.scheduler.due with
    | none => p
    | some task => (p.perform input task).settle input limit

/-- Nothing is due to a halted machine, so its fault comes first. -/
def ending (p : Progress) : Ending :=
  match p.scheduler.state, p.scheduler.due with
  | .halted fault, _ => .halted fault
  | _, none => .done
  | _, some _ => .unfinished

end Progress

structure Stretch extends Progress where
  ending : Ending

namespace Scheduler

def accepted (s : Scheduler) (elapsed : Nat) : Nat :=
  min elapsed s.machine.settings.catchUpLimit

def owe (s : Scheduler) (time : Nat) : Scheduler :=
  { s with instructionDebt := s.instructionDebt + time, timerDebt := s.timerDebt + time }

/-- The number of tasks that the debts can pay for. A period of zero does not count here. -/
def workload (s : Scheduler) : Nat :=
  s.instructionDebt / s.instructionPeriod + s.timerDebt / s.timerPeriod

/-- Performs everything that is due. `patience` bounds how many tasks are performed beyond the
workload, which happens only with a period of zero. -/
def payOff (s : Scheduler) (input : Input) (patience : Nat) : Stretch :=
  let p := Progress.settle { scheduler := s } input (s.workload + patience)
  { p with ending := p.ending }

def advance (s : Scheduler) (input : Input) (elapsed : Nat) (patience : Nat := 0) : Stretch :=
  match s.state with
  | .halted fault => { scheduler := s, ending := .halted fault }
  | .stopped => { scheduler := s, ending := .done }
  | .running =>
    let owing := s.owe (s.accepted elapsed)
    if max owing.instructionDebt owing.timerDebt ≤ Time.longest then owing.payOff input patience
    else { scheduler := s, ending := .overflow }

end Scheduler

structure Run where
  scheduler : Scheduler
  frames : Array Screen := #[]
  log : Log := #[]
  ending : Ending := .done

namespace Run

/-- Lets the slices pass one after the other, with a frame after each. A fault ends the run on
the spot, before the frame. -/
def go (r : Run) (input : Input) (patience : Nat) : List Nat → Run
  | [] => r
  | slice :: rest =>
    let stretch := r.scheduler.advance input slice patience
    let r := { r with scheduler := stretch.scheduler, log := r.log ++ stretch.log }
    match stretch.ending with
    | .done => { r with frames := r.frames.push r.scheduler.screen }.go input patience rest
    | ending => { r with ending }

def wasStopped (r : Run) : Bool := r.ending = .done

def finish (r : Run) : Run :=
  match r.ending with
  | .done => { r with scheduler := r.scheduler.stop, log := r.log.push .stopRequested }
  | _ => r

end Run

namespace Scheduler

/-- Runs until the stop signal is up, which is after the last of the slices. A machine stopped
earlier goes on where it was. -/
def run (s : Scheduler) (input : Input) (slices : List Nat) (patience : Nat := 0) : Run :=
  (Run.go { scheduler := s.resume } input patience slices).finish

def runFrames (s : Scheduler) (input : Input) (frames : Nat) (patience : Nat := 0) : Run :=
  s.run input (List.replicate frames s.timerPeriod) patience

end Scheduler

end Chip8
