import Chip8.Proofs.Halting
import Chip8.Proofs.Runs
import Chip8.Proofs.Slicing

/-! Running in pieces. Where a host makes up for one timer period at most, and sleeps for one before
each frame, only the number of frames counts: a run may be stopped after any of them and started
again, and comes to what it would have come to at once. -/

namespace Chip8

/-- What two runs, one after the other, show and leave behind is what one run does. -/
structure Run.Joined (first second whole : Run) : Prop where
  frames : first.frames ++ second.frames = whole.frames
  scheduler : second.scheduler = whole.scheduler
  ending : second.ending = whole.ending

/-- What the first run has shown does not count for how the second one ends. -/
theorem Run.joined_finish (first r : Run) (log : Log) :
    first.Joined r.finish ({ r with frames := first.frames ++ r.frames, log } : Run).finish := by
  obtain ⟨scheduler, frames, trace, ending⟩ := r
  cases ending <;> exact ⟨rfl, rfl, rfl⟩

namespace Scheduler

variable {settings : Settings} {s : Scheduler} {input : Input} {patience : Nat}

structure Steady (s : Scheduler) : Prop where
  paced : s.Paced
  settled : s.Settled
  short : s.machine.settings.catchUpLimit ≤ s.timerPeriod

theorem Reachable.steady (h : s.Reachable settings) (hp : s.Paced)
    (short : settings.catchUpLimit ≤ settings.timerPeriod) : s.Steady := by
  refine ⟨hp, h.settled hp, ?_⟩
  rw [timerPeriod, h.settings_eq]
  exact short

theorem Steady.of_settings {r : Scheduler} (h : s.Steady) (hs : r.Settled)
    (hm : r.machine.settings = s.machine.settings) : r.Steady := by
  obtain ⟨-, ht⟩ := periods_of_settings hm
  refine ⟨h.paced.of_settings hm, hs, ?_⟩
  rw [hm, ht]
  exact h.short

theorem Steady.advance (h : s.Steady) (input : Input) (elapsed patience : Nat) :
    (s.advance input elapsed patience).scheduler.Steady :=
  h.of_settings (settled_advance h.paced h.settled input elapsed patience)
    (s.settings_advance input elapsed patience)

theorem Steady.resume (h : s.Steady) : s.resume.Steady :=
  h.of_settings (settled_resume h.settled) s.settings_resume

theorem Steady.advances (h : s.Steady) (input : Input) (patience : Nat) (slices : List Nat) :
    (s.advances input patience slices).Steady :=
  advances_keeps h (fun _ slice h => h.advance input slice patience) slices

/-- What is owed before and what comes on top are both less than two seconds. -/
theorem Steady.ending_ne_overflow (h : s.Steady) (input : Input) (elapsed patience : Nat) :
    (s.advance input elapsed patience).ending ≠ .overflow := by
  have short := h.short
  have hi : s.instructionPeriod ≤ Time.second := Time.period_le _
  have ht : s.timerPeriod ≤ Time.second := Time.period_le _
  apply h.settled.ending_ne_overflow
  simp only [Time.longest, Time.second] at hi ht ⊢
  omega

theorem Steady.ending_advance (h : s.Steady) (input : Input) (elapsed patience : Nat) :
    (s.advance input elapsed patience).ending = .done ∨
      ∃ fault, (s.advance input elapsed patience).ending = .halted fault ∧
        (s.advance input elapsed patience).scheduler.state = .halted fault := by
  have fits := h.ending_ne_overflow input elapsed patience
  rcases Scheduler.ending_advance h.paced input elapsed patience fits with ⟨done, -⟩ | halted
  · exact Or.inl done
  · exact Or.inr halted

theorem Steady.ending_go (h : s.Steady) (input : Input) (patience : Nat) (slices : List Nat) :
    (Run.go { scheduler := s } input patience slices).ending = .done ∨
      ∃ fault, (Run.go { scheduler := s } input patience slices).ending = .halted fault ∧
        (Run.go { scheduler := s } input patience slices).scheduler.state = .halted fault := by
  cases Run.account_go s input patience slices with
  | whole _ _ _ ending => exact Or.inl ending
  | cut before slice _ _ scheduler ended broken =>
    rw [scheduler, ← ended, advances_concat]
    rw [← ended] at broken
    rcases (h.advances input patience before).ending_advance input slice patience with done | halted
    · exact absurd done broken
    · exact Or.inr halted

theorem ne_stopped_advances (hp : s.Paced) (h : s.state ≠ .stopped) (input : Input)
    (patience : Nat) (slices : List Nat) :
    (s.advances input patience slices).state ≠ .stopped := by
  have both : (s.advances input patience slices).Paced ∧
      (s.advances input patience slices).state ≠ .stopped := by
    apply advances_keeps (P := fun s => s.Paced ∧ s.state ≠ .stopped) ⟨hp, h⟩
    rintro s slice ⟨hp, h⟩
    exact ⟨hp.of_settings (s.settings_advance input slice patience),
      ne_stopped_advance hp h input slice patience⟩
  exact both.2

theorem ne_stopped_go (hp : s.Paced) (h : s.state ≠ .stopped) (input : Input) (patience : Nat)
    (slices : List Nat) :
    (Run.go { scheduler := s } input patience slices).scheduler.state ≠ .stopped := by
  cases Run.account_go s input patience slices with
  | whole _ _ scheduler _ =>
    rw [scheduler]
    exact ne_stopped_advances hp h input patience slices
  | cut before slice _ _ scheduler _ _ =>
    rw [scheduler]
    exact ne_stopped_advances hp h input patience _

theorem ne_stopped_resume (s : Scheduler) : s.resume.state ≠ .stopped := by
  simp only [Scheduler.resume]
  split
  · simp
  · assumption

/-- A run that is cut in two and started again comes to what it would have come to at once. -/
theorem run_append (h : s.Steady) (input : Input) (patience : Nat) (first : List Nat)
    {second : List Nat} (more : second ≠ []) :
    let before := s.run input first patience
    Run.Joined before (before.scheduler.run input second patience)
      (s.run input (first ++ second) patience) := by
  intro before
  have awake := ne_stopped_go h.resume.paced s.ne_stopped_resume input patience first
  simp only [before, run]
  rcases h.resume.ending_go input patience first with done | ⟨fault, broken, halted⟩
  · -- stopping and resuming between the two runs leaves the scheduler as it was
    have resumed := (Run.go { scheduler := s.resume } input patience first).scheduler.resume_stop
    rw [resume_of_ne_stopped awake] at resumed
    rw [Run.go_append_of_done done, Run.finish_of_done done]
    simp only [resumed]
    generalize Run.go { scheduler := s.resume } input patience first = r at done ⊢
    obtain ⟨scheduler, frames, log, ending⟩ := r
    obtain rfl : ending = .done := done
    rw [Run.go_eq_append scheduler frames log]
    exact Run.joined_finish _ _ _
  · have ended : (Run.go { scheduler := s.resume } input patience first).ending ≠ .done := by
      rw [broken]
      simp
    rw [Run.go_append_of_broken rfl ended, Run.finish_of_halted broken]
    obtain ⟨slice, rest, rfl⟩ := List.exists_cons_of_ne_nil more
    have again := run_of_halted halted input slice rest patience
    simp only [run] at again
    rw [again]
    exact ⟨by simp, rfl, broken.symm⟩

theorem advance_of_le {elapsed : Nat} (long : s.machine.settings.catchUpLimit ≤ elapsed)
    (input : Input) (patience : Nat) :
    s.advance input elapsed patience =
      s.advance input s.machine.settings.catchUpLimit patience := by
  simp only [advance, accepted, Nat.min_eq_right long, Nat.min_self]

end Scheduler

/-- Of slices that are as long as what is made up for, only the number counts. -/
theorem Run.go_of_le {r : Run} {limit : Nat}
    (hl : r.scheduler.machine.settings.catchUpLimit = limit) {slices : List Nat}
    (long : ∀ slice ∈ slices, limit ≤ slice) (input : Input) (patience : Nat) :
    r.go input patience slices = r.go input patience (List.replicate slices.length limit) := by
  induction slices generalizing r with
  | nil => rfl
  | cons slice rest ih =>
    have same : r.scheduler.advance input slice patience =
        r.scheduler.advance input limit patience := by
      rw [Scheduler.advance_of_le (hl ▸ long slice List.mem_cons_self), hl]
    have kept := r.scheduler.settings_advance input limit patience
    have later : ∀ slice ∈ rest, limit ≤ slice := fun slice hm =>
      long slice (List.mem_cons_of_mem _ hm)
    rw [List.length_cons, List.replicate_succ]
    by_cases done : (r.scheduler.advance input limit patience).ending = .done
    · rw [go_cons_of_done (same ▸ done), go_cons_of_done done, same]
      exact ih (kept ▸ hl) later
    · rw [go_cons_of_broken (same ▸ done), go_cons_of_broken done, same]

namespace Scheduler

variable {settings : Settings} {s : Scheduler}

theorem run_of_le {limit : Nat} (hl : s.machine.settings.catchUpLimit = limit)
    {slices : List Nat} (long : ∀ slice ∈ slices, limit ≤ slice) (input : Input) (patience : Nat) :
    s.run input slices patience = s.run input (List.replicate slices.length limit) patience := by
  have resumed : s.resume.machine.settings.catchUpLimit = limit := by
    rw [s.settings_resume]
    exact hl
  simp only [run]
  rw [Run.go_of_le resumed long]

theorem running_advance (hp : s.Paced) (running : s.state = .running) {input : Input}
    {elapsed patience : Nat} (done : (s.advance input elapsed patience).ending = .done) :
    (s.advance input elapsed patience).scheduler.state = .running := by
  have fits : (s.advance input elapsed patience).ending ≠ .overflow := by
    rw [done]
    simp
  have awake := ne_stopped_advance hp (by simp [running]) input elapsed patience
  rcases ending_advance hp input elapsed patience fits with ⟨-, going⟩ | ⟨fault, halted, -⟩
  · cases state : (s.advance input elapsed patience).scheduler.state with
    | running => rfl
    | stopped => exact absurd state awake
    | halted fault => exact absurd state (going fault)
  · rw [done] at halted
    cases halted

end Scheduler

theorem Run.running_go {r : Run} (hp : r.scheduler.Paced) (running : r.scheduler.state = .running)
    {input : Input} {patience : Nat} {slices : List Nat}
    (done : (r.go input patience slices).ending = .done) :
    (r.go input patience slices).scheduler.state = .running := by
  induction slices generalizing r with
  | nil => exact running
  | cons slice rest ih =>
    by_cases passed : (r.scheduler.advance input slice patience).ending = .done
    · rw [go_cons_of_done passed] at done ⊢
      have kept := r.scheduler.settings_advance input slice patience
      exact ih (hp.of_settings kept) (Scheduler.running_advance hp running passed) done
    · rw [go_cons_of_broken passed] at done
      exact absurd done passed

namespace Scheduler

variable {settings : Settings} {s : Scheduler}

/-- A run that was not ended by a fault has let every slice pass, and the machine is stopped. -/
theorem Steady.run_of_unbroken (h : s.Steady) (awake : ∀ fault, s.state ≠ .halted fault)
    (input : Input) (patience : Nat) (slices : List Nat)
    (unbroken : ∀ fault, (s.run input slices patience).ending ≠ .halted fault) :
    s.resume.passed input patience slices = slices ∧
      (s.run input slices patience).frames.toList = s.resume.pictures input patience slices ∧
      (s.run input slices patience).ending = .done ∧
      (s.run input slices patience).scheduler =
        { s.resume.advances input patience slices with state := .stopped } := by
  cases Run.account_go s.resume input patience slices with
  | whole passed frames scheduler ending =>
    have running := Run.running_go h.resume.paced (running_resume awake) ending
    rw [run, Run.finish_of_done ending]
    refine ⟨passed, frames, ending, ?_⟩
    rw [← scheduler]
    simp only [stop, running]
  | cut before slice _ _ _ _ broken =>
    rw [run, Run.finish_of_broken broken] at unbroken
    rcases h.resume.ending_go input patience slices with done | ⟨fault, halted, -⟩
    · exact absurd done broken
    · exact absurd halted (unbroken fault)

theorem Steady.ending_run (h : s.Steady) (input : Input) (patience : Nat) (slices : List Nat) :
    (s.run input slices patience).ending = .done ∨
      ∃ fault, (s.run input slices patience).ending = .halted fault := by
  rcases h.resume.ending_go input patience slices with done | ⟨fault, halted, -⟩
  · rw [run, Run.finish_of_done done]
    exact Or.inl done
  · rw [run, Run.finish_of_halted halted]
    exact Or.inr ⟨fault, halted⟩

theorem run_in_pieces (h : s.Reachable settings) (hp : s.Paced)
    (short : settings.catchUpLimit ≤ settings.timerPeriod) (input : Input) (patience : Nat) :
    (∀ first second whole : List Nat, second ≠ [] →
      whole.length = first.length + second.length →
      (∀ slice ∈ first ++ second ++ whole, settings.timerPeriod ≤ slice) →
      let before := s.run input first patience
      let after := before.scheduler.run input second patience
      let once := s.run input whole patience
      before.Joined after once ∧
        (once.ending = .done ∨ ∃ fault, once.ending = .halted fault)) ∧
    ((∀ fault, s.state ≠ .halted fault) →
      (∀ slices : List Nat, (∀ slice ∈ slices, settings.timerPeriod ≤ slice) →
        let r := s.run input slices patience
        let limits := List.replicate slices.length settings.catchUpLimit
        (∀ fault, r.ending ≠ .halted fault) →
        s.resume.passed input patience limits = limits ∧
          r.frames.toList = s.resume.pictures input patience limits ∧ r.ending = .done ∧
          r.scheduler = { s.resume.advances input patience limits with state := .stopped }) ∧
      s.run input [] patience =
        { scheduler := { s with state := .stopped }, log := #[.stopRequested] }) := by
  have steady := h.steady hp short
  have hl : s.machine.settings.catchUpLimit = settings.catchUpLimit := by
    rw [h.settings_eq]
  have counted : ∀ slices : List Nat, (∀ slice ∈ slices, settings.timerPeriod ≤ slice) →
      s.run input slices patience =
        s.run input (List.replicate slices.length settings.catchUpLimit) patience := by
    intro slices long
    apply run_of_le hl
    intro slice hm
    exact short.trans (long slice hm)
  refine ⟨?_, fun awake => ⟨?_, ?_⟩⟩
  · intro first second whole more length long before after once
    have pieces : once = s.run input (first ++ second) patience := by
      have hw := counted whole fun slice hm => long slice (List.mem_append_right _ hm)
      have hs := counted (first ++ second) fun slice hm => long slice (List.mem_append_left _ hm)
      rw [List.length_append, ← length, ← hw] at hs
      exact hs.symm
    refine ⟨?_, steady.ending_run input patience whole⟩
    rw [pieces]
    exact run_append steady input patience first more
  · intro slices long r limits unbroken
    have same : r = s.run input limits patience := counted slices long
    rw [same] at unbroken ⊢
    exact steady.run_of_unbroken awake input patience limits unbroken
  · have running := running_resume awake
    simp only [run, Run.go, Run.finish, stop, running]
    cases state : s.state with
    | halted fault => exact absurd state (awake fault)
    | _ => simp [resume, state]

/-- The host wakes up late now and then, and the second run comes to a fault. -/
theorem run_in_pieces_waking_late :
    let s := fresh glyphAndReturn
    let before := s.run .silent [3000000]
    let after := before.scheduler.run .silent [5000000, 2000000]
    let once := s.run .silent [2000000, 9000000, 4000000]
    before.Joined after once ∧ once.ending = .halted .stackUnderflow ∧
      before.frames.toList = s.resume.pictures .silent 0 [2000000] ∧
      before.scheduler.state = .stopped ∧ (s.run .silent []).frames = #[] := by
  intro s before after once
  have h : s.Reachable
      { clockRate := 1000, timerRate := 500, catchUpLimit := 2000000, seed := some 1 } :=
    .fresh (.boot ⟨#[0xA0, 0x50, 0x60, 0x00, 0xD0, 0x15, 0x00, 0xEE]⟩ (.replicate 8 0)
      (by decide +kernel))
  have hp : s.Paced := ⟨by decide +kernel, by decide +kernel⟩
  obtain ⟨joined, unbroken⟩ := run_in_pieces h hp (by decide) .silent 0
  have awake : ∀ fault, s.state ≠ .halted fault := by
    have running : s.state = .running := rfl
    simp [running]
  obtain ⟨whole, signalled⟩ := unbroken awake
  have done : before.ending = .done := by decide +kernel
  have unfaulted : ∀ fault, before.ending ≠ .halted fault := by
    rw [done]
    simp
  obtain ⟨-, frames, -, stopped⟩ := whole [3000000] (by decide) unfaulted
  refine ⟨?_, by decide +kernel, ?_, ?_, by rw [signalled]⟩
  · exact (joined [3000000] [5000000, 2000000] _ (by simp) rfl (by decide)).1
  · simp only [before, frames, List.length_singleton, List.replicate_one]
  · simp only [before, stopped]

end Scheduler

end Chip8
