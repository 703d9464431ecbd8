import Chip8.Scheduler.Lemmas

/-! What a host can do with a machine and with a scheduler, and the states it can reach that way.
A host that holds a scheduler can also reach past it to its machine. No operation touches the
settings, and no state has more calls waiting than they allow. -/

namespace Chip8

/-- A state that can be reached, with a record of the way there: it begins with one of the starts,
and every move is entered in it. -/
inductive Recorded {σ ι ρ : Type} (start : σ → ρ → Prop) (next : σ → ι → σ)
    (enter : σ → ι → ρ → ρ) : σ → ρ → Prop where
  | start {s : σ} {r : ρ} (h : start s r) : Recorded start next enter s r
  | next {s : σ} {r : ρ} (move : ι) (h : Recorded start next enter s r) :
      Recorded start next enter (next s move) (enter s move r)

theorem Recorded.forget {σ ι ρ : Type} {start : σ → ρ → Prop} {next : σ → ι → σ}
    {enter : σ → ι → ρ → ρ} {s : σ} {r : ρ} {P : σ → Prop} (h : Recorded start next enter s r)
    (starts : ∀ s r, start s r → P s) (moves : ∀ s move, P s → P (next s move)) : P s := by
  induction h with
  | start h => exact starts _ _ h
  | next move _ ih => exact moves _ move ih

namespace Machine

inductive Command where
  | step
  | tick
  | reset (rom : Rom) (entropy : ChaCha.Key)

def obey (m : Machine) (input : Input) : Command → Outcome Machine
  | .step => m.step input
  | .tick => .ok m.tick
  | .reset rom entropy => m.reset rom entropy

inductive Built (settings : Settings) : Machine → Prop where
  | blank (entropy : ChaCha.Key) : Built settings (blank settings entropy)
  | boot (rom : Rom) (entropy : ChaCha.Key) (h : (boot rom settings entropy).fault = none) :
      Built settings (boot rom settings entropy).after

/-- The input may answer every command in its own way: only the order of its answers counts. -/
inductive Reachable (settings : Settings) : Machine → Prop where
  | blank (entropy : ChaCha.Key) : Reachable settings (blank settings entropy)
  | boot (rom : Rom) (entropy : ChaCha.Key) (h : (boot rom settings entropy).fault = none) :
      Reachable settings (boot rom settings entropy).after
  | obey {m : Machine} (input : Input) (command : Command) (h : Reachable settings m) :
      Reachable settings (m.obey input command).after

def after (m : Machine) : Input × Command → Machine
  | (input, command) => (m.obey input command).after

/-- Whatever is recorded, there is a record for every machine that can be reached. -/
theorem Reachable.recorded {settings : Settings} {ρ : Type} {start : Machine → ρ → Prop}
    (enter : Machine → Input × Command → ρ → ρ) {m : Machine} (h : Reachable settings m)
    (built : ∀ m, Built settings m → ∃ r, start m r) :
    ∃ r, Recorded start after enter m r := by
  induction h with
  | blank entropy =>
    obtain ⟨r, started⟩ := built _ (.blank entropy)
    exact ⟨r, .start started⟩
  | boot rom entropy h =>
    obtain ⟨r, started⟩ := built _ (.boot rom entropy h)
    exact ⟨r, .start started⟩
  | obey input command _ ih =>
    obtain ⟨r, recorded⟩ := ih
    exact ⟨_, recorded.next (input, command)⟩

theorem Built.reachable {settings : Settings} {m : Machine} (h : Built settings m) :
    Reachable settings m := by
  cases h with
  | blank entropy => exact .blank entropy
  | boot rom entropy h => exact .boot rom entropy h

theorem settings_boot (rom : Rom) (settings : Settings) (entropy : ChaCha.Key) :
    (boot rom settings entropy).after.settings = settings := by
  simp only [boot]
  split <;> rfl

theorem settings_reset (m : Machine) (rom : Rom) (entropy : ChaCha.Key) :
    (m.reset rom entropy).after.settings = m.settings := by
  simp only [reset]
  split <;> rfl

theorem settings_obey (m : Machine) (input : Input) (command : Command) :
    (m.obey input command).after.settings = m.settings := by
  cases command with
  | step => exact settings_step m input
  | tick => rfl
  | reset rom entropy => exact settings_reset m rom entropy

theorem Reachable.settings_eq {settings : Settings} {m : Machine} (h : Reachable settings m) :
    m.settings = settings := by
  induction h with
  | blank => rfl
  | boot rom entropy => exact settings_boot rom settings entropy
  | obey input command _ ih => exact (settings_obey _ input command).trans ih

@[simp] theorem stack_skipIf (m : Machine) (condition : Bool) :
    (m.skipIf condition).stack = m.stack := by
  simp only [skipIf]
  split <;> rfl

@[simp] theorem stack_compute (m : Machine) (op : Arithmetic) (x y : UInt8) :
    (m.compute op x y).stack = m.stack := by
  simp only [compute]
  split <;> rfl

theorem stack_execute_le (m : Machine) (input : Input) (instruction : Instruction)
    (h : m.stack.length ≤ m.settings.stackLimit) :
    (m.execute input instruction).after.stack.length ≤ m.settings.stackLimit := by
  cases instruction with
  | ret =>
    simp only [execute]
    split
    · exact h
    · rename_i address rest eq
      rw [eq, List.length_cons] at h
      exact Nat.le_of_succ_le h
  | call target =>
    simp only [execute]
    split
    · assumption
    · exact h
  | draw | awaitKey => simp only [execute]; split <;> exact h
  | skipEqual | skipUnequal | skipSame | skipDifferent | skipHeld | skipReleased | arithmetic =>
    simpa [execute, Outcome.ok, afterPoll] using h
  | _ => exact h

theorem stack_step_le (m : Machine) (input : Input)
    (h : m.stack.length ≤ m.settings.stackLimit) :
    (m.step input).after.stack.length ≤ m.settings.stackLimit := by
  simp only [step]
  split
  · exact h
  · split
    · exact h
    · exact stack_execute_le m.pastWord input _ h

theorem stack_reset_le (m : Machine) (rom : Rom) (entropy : ChaCha.Key)
    (h : m.stack.length ≤ m.settings.stackLimit) :
    (m.reset rom entropy).after.stack.length ≤ m.settings.stackLimit := by
  simp only [reset]
  split
  · exact Nat.zero_le _
  · exact h

theorem Reachable.stack_le {settings : Settings} {m : Machine} (h : Reachable settings m) :
    m.stack.length ≤ m.settings.stackLimit := by
  induction h with
  | blank => exact Nat.zero_le _
  | boot rom entropy =>
    simp only [Machine.boot]
    split <;> exact Nat.zero_le _
  | obey input command _ ih =>
    rw [settings_obey]
    cases command with
    | step => exact stack_step_le _ input ih
    | tick => exact ih
    | reset rom entropy => exact stack_reset_le _ rom entropy ih

end Machine

namespace Scheduler

def fresh (m : Machine) : Scheduler := { machine := m }

/-- The slices of a run are the times that pass between its frames, up to the stop signal. -/
inductive Operation where
  | advance (elapsed : Nat)
  | stop
  | resume
  | run (slices : List Nat)
  | reset (rom : Rom) (entropy : ChaCha.Key)
  | machine (command : Machine.Command)

structure Answer where
  scheduler : Scheduler
  fault : Option Fault := none
  breakdown : Option String := none
  frames : Array Screen := #[]
  log : Log := #[]

def operate (s : Scheduler) (input : Input) (patience : Nat) : Operation → Answer
  | .advance elapsed =>
    let stretch := s.advance input elapsed patience
    { scheduler := stretch.scheduler
      fault := stretch.ending.fault?
      breakdown := stretch.ending.breakdown?
      log := stretch.log }
  | .stop => { scheduler := s.stop }
  | .resume => { scheduler := s.resume }
  | .run slices =>
    let run := s.run input slices patience
    { scheduler := run.scheduler
      fault := run.ending.fault?
      breakdown := run.ending.breakdown?
      frames := run.frames
      log := run.log }
  | .reset rom entropy =>
    let outcome := s.reset rom entropy
    { scheduler := outcome.after, fault := outcome.fault, log := outcome.log }
  | .machine command =>
    let outcome := s.machine.obey input command
    { scheduler := { s with machine := outcome.after }
      fault := outcome.fault
      log := outcome.log }

def answers (s : Scheduler) (input : Input) (patience : Nat) : List Operation → List Answer
  | [] => []
  | operation :: rest =>
    let answer := s.operate input patience operation
    answer :: answer.scheduler.answers input patience rest

inductive Reachable (settings : Settings) : Scheduler → Prop where
  | fresh {m : Machine} (h : m.Reachable settings) : Reachable settings (fresh m)
  | operate {s : Scheduler} (input : Input) (patience : Nat) (operation : Operation)
      (h : Reachable settings s) :
      Reachable settings (s.operate input patience operation).scheduler

def after (s : Scheduler) : Input × Nat × Operation → Scheduler
  | (input, patience, operation) => (s.operate input patience operation).scheduler

theorem Reachable.recorded {settings : Settings} {ρ : Type} {start : Scheduler → ρ → Prop}
    (enter : Scheduler → Input × Nat × Operation → ρ → ρ) {s : Scheduler} (h : Reachable settings s)
    (built : ∀ m, m.Reachable settings → ∃ r, start (Scheduler.fresh m) r) :
    ∃ r, Recorded start after enter s r := by
  induction h with
  | fresh h =>
    obtain ⟨r, started⟩ := built _ h
    exact ⟨r, .start started⟩
  | operate input patience operation _ ih =>
    obtain ⟨r, recorded⟩ := ih
    exact ⟨_, recorded.next (input, patience, operation)⟩

end Scheduler

end Chip8
