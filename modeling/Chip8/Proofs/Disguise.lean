import Chip8.Proofs.Course

/-! What an instruction does not look at. Few instructions turn to the timers, one to the random
bytes, and none to the number of questions asked, so all others do the same on a machine that has
something else there. A scheduler does not look at any of it, so it makes as little of it as the
tasks that it performs. -/

namespace Chip8

def Instruction.isTimed : Instruction → Bool
  | .readDelay _ | .setDelay _ | .setSound _ => true
  | _ => false

structure Disguise where
  delay : UInt8 → UInt8 := id
  sound : UInt8 → UInt8 := id
  random : RandomStream → RandomStream := id
  polled : Nat → Nat := id

namespace Machine

variable {m : Machine} {d : Disguise} {input heard : Input} {i : Instruction}

def disguised (d : Disguise) (m : Machine) : Machine :=
  { m with
    delay := d.delay m.delay
    sound := d.sound m.sound
    random := d.random m.random
    polled := d.polled m.polled }

theorem skipIf_disguised (m : Machine) (d : Disguise) (condition : Bool) :
    (m.disguised d).skipIf condition = (m.skipIf condition).disguised d := by
  cases condition <;> rfl

theorem compute_disguised (m : Machine) (d : Disguise) (op : Arithmetic) (x y : UInt8) :
    (m.disguised d).compute op x y = (m.compute op x y).disguised d := by
  cases op <;> rfl

theorem afterPoll_disguised (counted : ∀ j, d.polled (j + 1) = d.polled j + 1) (m : Machine) :
    (m.disguised d).afterPoll = m.afterPoll.disguised d := by
  simp only [afterPoll, disguised, counted]

/-- An instruction comes to the same on a machine with a disguise, as far as the disguise keeps
what the instruction turns to. -/
theorem execute_disguised (answered : ∀ j, input (d.polled j) = heard j)
    (counted : ∀ j, d.polled (j + 1) = d.polled j + 1)
    (timeless : i.isTimed = true → d.delay = id ∧ d.sound = id)
    (certain : ∀ x mask, i = .random x mask → d.random = id) :
    (m.disguised d).execute input i = (m.execute heard i).map (disguised d) := by
  have polled := afterPoll_disguised counted m
  have held : (m.disguised d).held input = m.held heard := answered m.polled
  cases i with
  | setDelay x | setSound x | readDelay x =>
    obtain ⟨delay, sound, random, polled⟩ := d
    obtain ⟨rfl, rfl⟩ := timeless rfl
    rfl
  | random x mask =>
    obtain ⟨delay, sound, random, polled⟩ := d
    obtain rfl := certain x mask rfl
    rfl
  | skipEqual | skipUnequal | skipSame | skipDifferent =>
    exact congrArg Outcome.ok (m.skipIf_disguised d _)
  | skipHeld x | skipReleased x =>
    simp only [execute, polled, held]
    exact congrArg Outcome.ok (m.afterPoll.skipIf_disguised d _)
  | awaitKey x =>
    simp only [execute, polled, held]
    cases m.held heard <;> rfl
  | arithmetic op x y => exact congrArg Outcome.ok (m.compute_disguised d op x y)
  | ret =>
    have same : (m.disguised d).stack = m.stack := rfl
    simp only [execute, same]
    cases m.stack <;> rfl
  | call target =>
    simp only [execute]
    by_cases room : m.stack.length < m.settings.stackLimit
    · rw [if_pos room]
      exact if_pos room
    · rw [if_neg room]
      exact if_neg room
  | draw x y height =>
    have same : (m.disguised d).memory.slice (m.disguised d).index height.toNat =
        m.memory.slice m.index height.toNat := rfl
    simp only [execute, same]
    cases m.memory.slice m.index height.toNat <;> rfl
  | _ => rfl

/-- A cycle fetches the same word with a disguise, so if it executes no instruction it comes to the
same, and otherwise to what the instruction comes to. -/
theorem step_disguised (m : Machine) (d : Disguise) (input heard : Input) :
    (∀ i, ¬m.Executes i) ∧ (m.disguised d).step input = (m.step heard).map (disguised d) ∨
      ∃ i, m.Executes i ∧ ∀ change : Machine → Machine,
        (m.pastWord.disguised d).execute input i = (m.pastWord.execute heard i).map change →
        (m.disguised d).step input = (m.step heard).map change := by
  have fetched : (m.disguised d).fetch = m.fetch := rfl
  cases hf : m.fetch with
  | error fault =>
    rw [step_of_fetch_error hf, step_of_fetch_error (fetched.trans hf)]
    refine Or.inl ⟨?_, rfl⟩
    rintro i ⟨word, hw, -⟩
    cases hf.symm.trans hw
  | ok word =>
    cases hw : Instruction.ofWord word with
    | error fault =>
      rw [step_of_unknown hf hw, step_of_unknown (fetched.trans hf) hw]
      refine Or.inl ⟨?_, rfl⟩
      intro i executes
      cases hw.symm.trans (executes.ofWord hf)
    | ok i =>
      refine Or.inr ⟨i, ⟨word, hf, hw⟩, ?_⟩
      intro change same
      have past : (m.disguised d).pastWord = m.pastWord.disguised d := rfl
      rw [step_of_known hf hw, step_of_known (fetched.trans hf) hw, past, same]
      rfl

/-- Each task does the same under every disguise of a family, and leaves another one of them. -/
def Unaware {ι : Type} (d : ι → Disguise) (input heard : Input) : Machine → List Task → Prop
  | _, [] => True
  | m, task :: rest =>
    (∀ worn, ∃ left, (m.disguised (d worn)).perform input task =
      (m.perform heard task).map (disguised (d left))) ∧
      Unaware d input heard (m.perform heard task).after rest

theorem unaware_of_forall {ι : Type} {d : ι → Disguise}
    (h : ∀ m task worn, ∃ left, (disguised (d worn) m).perform input task =
      (m.perform heard task).map (disguised (d left))) (m : Machine) (tasks : List Task) :
    m.Unaware d input heard tasks := by
  induction tasks generalizing m with
  | nil => trivial
  | cons task rest ih => exact ⟨h m task, ih _⟩

end Machine

def Scheduler.disguised (d : Disguise) (s : Scheduler) : Scheduler :=
  { s with machine := s.machine.disguised d }

def Progress.disguised (d : Disguise) (p : Progress) : Progress :=
  { p with scheduler := p.scheduler.disguised d }

def Stretch.disguised (d : Disguise) (stretch : Stretch) : Stretch :=
  { stretch with scheduler := stretch.scheduler.disguised d }

theorem Progress.settle_succ {s : Scheduler} {task : Task} (due : s.due = some task)
    (input : Input) (limit : Nat) :
    Progress.settle { scheduler := s } input (limit + 1) =
      (Progress.perform { scheduler := s } input task).append
        (Progress.settle { scheduler := (s.perform input task).after } input limit) := by
  rw [settle_of_due due, ← append_settle]
  simp [append, perform]

namespace Scheduler

variable {s : Scheduler} {input heard : Input}

theorem perform_disguised {worn left : Disguise} {task : Task}
    (same : (s.machine.disguised worn).perform input task =
      (s.machine.perform heard task).map (Machine.disguised left)) :
    (s.disguised worn).perform input task = (s.perform heard task).map (disguised left) := by
  cases task with
  | tick =>
    have ticked : (s.machine.disguised worn).tick = s.machine.tick.disguised left :=
      congrArg Outcome.after same
    simp only [perform, tick, disguised, ticked]
    rfl
  | cycle =>
    change (s.machine.disguised worn).step input = (s.machine.step heard).map _ at same
    simp only [perform, cycle, disguised, same, Outcome.map]
    cases (s.machine.step heard).fault with
    | none => rfl
    | some fault =>
      simp only [afterFault]
      split <;> rfl

variable {ι : Type} {d : ι → Disguise}

theorem settle_disguised {limit : Nat}
    (unaware : s.machine.Unaware d input heard
      (Progress.settle { scheduler := s } heard limit).performed.toList) (worn : ι) :
    ∃ left, Progress.settle { scheduler := s.disguised (d worn) } input limit =
      (Progress.settle { scheduler := s } heard limit).disguised (d left) := by
  induction limit generalizing s worn with
  | zero => exact ⟨worn, rfl⟩
  | succ limit ih =>
    have same : (s.disguised (d worn)).due = s.due := rfl
    cases due : s.due with
    | none =>
      rw [Progress.settle_of_idle due, Progress.settle_of_idle (same.trans due)]
      exact ⟨worn, rfl⟩
    | some task =>
      let next := (s.perform heard task).after
      have tasks : (Progress.settle { scheduler := s } heard (limit + 1)).performed.toList =
          task :: (Progress.settle { scheduler := next } heard limit).performed.toList := by
        rw [Progress.settle_succ due]
        simp [Progress.append, Progress.perform, next]
      rw [tasks, Machine.Unaware, ← machine_perform] at unaware
      obtain ⟨between, first⟩ := unaware.1 worn
      have performed := perform_disguised first
      obtain ⟨left, settled⟩ := ih (s := next) unaware.2 between
      refine ⟨left, ?_⟩
      rw [Progress.settle_succ due, Progress.settle_succ (same.trans due), performed]
      simp only [Outcome.map]
      rw [settled]
      simp [Progress.append, Progress.perform, Progress.disguised, performed, Outcome.map, next]

/-- Time passes in the same way under a disguise, if the tasks performed in it do not see it. -/
theorem advance_disguised (s : Scheduler) {elapsed patience : Nat}
    (unaware : s.machine.Unaware d input heard
      (s.advance heard elapsed patience).performed.toList) (worn : ι) :
    ∃ left, (s.disguised (d worn)).advance input elapsed patience =
      (s.advance heard elapsed patience).disguised (d left) := by
  let other := s.disguised (d worn)
  cases state : s.state with
  | halted fault =>
    rw [advance_of_halted state, advance_of_halted (s := other) state]
    exact ⟨worn, rfl⟩
  | stopped =>
    rw [advance_of_stopped state, advance_of_stopped (s := other) state]
    exact ⟨worn, rfl⟩
  | running =>
    by_cases fits : s.Fits elapsed
    · rw [advance_of_fits state fits] at unaware
      obtain ⟨left, settled⟩ := settle_disguised (s := s.owe (s.accepted elapsed)) unaware worn
      refine ⟨left, ?_⟩
      rw [advance_of_fits state fits, advance_of_fits (s := other) state fits]
      exact congrArg (fun p : Progress => ({ p with ending := p.ending } : Stretch)) settled
    · rw [advance_of_not_fits state fits, advance_of_not_fits (s := other) state fits]
      exact ⟨worn, rfl⟩

end Scheduler

end Chip8
