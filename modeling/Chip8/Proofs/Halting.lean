import Chip8.Proofs.Cycle
import Chip8.Proofs.Settling

/-! A halt latches. The fault of the cycle that halted a scheduler is the answer to everything that
asks for more time, and only another program gets out of it. -/

namespace Chip8

theorem RunState.eq_of_after {fault? : Option Fault} {fault : Fault}
    (h : RunState.running.after fault? = .halted fault) :
    fault? = some fault ∧ fault.isFatal = true := by
  cases fault? with
  | none => cases h
  | some other =>
    simp only [RunState.after] at h
    split at h
    · cases h
      exact ⟨rfl, ‹_›⟩
    · cases h

theorem Machine.kind_of_fatal {m : Machine} {input : Input} {fault : Fault}
    (h : (m.step input).fault = some fault) (fatal : fault.isFatal = true) :
    (∃ address, fault = .memory address) ∨ fault = .stackUnderflow ∨
      ∃ limit, fault = .stackOverflow limit := by
  rcases fault_step_iff.mp h with ⟨-, rfl⟩ | ⟨word, -, -, rfl⟩ | ⟨-, -, rfl⟩ | ⟨-, -, rfl⟩ |
    ⟨i, n, -, -, -, rfl⟩
  · exact Or.inl ⟨_, rfl⟩
  · cases fatal
  · exact Or.inr (Or.inl rfl)
  · exact Or.inr (Or.inr ⟨_, rfl⟩)
  · exact Or.inl ⟨_, rfl⟩

namespace Scheduler

variable {settings : Settings} {s t : Scheduler} {input : Input} {fault : Fault}

def Restarts (s : Scheduler) : Operation → Prop
  | .reset rom entropy => (s.reset rom entropy).fault = none
  | _ => False

/-- Some operations later, and never restarted between. The input may answer each of them in its own
way, as the host may press other keys. -/
inductive Later (s : Scheduler) : Scheduler → Prop where
  | now : s.Later s
  | operate {t : Scheduler} (input : Input) (patience : Nat) (operation : Operation)
      (h : s.Later t) (kept : ¬t.Restarts operation) :
      s.Later (t.operate input patience operation).scheduler

/-- Every answer of a halted scheduler to time that passes is its fault, and nothing else. Only a
run that finds the stop signal up has no fault to report. -/
structure Latched (s : Scheduler) (fault : Fault) : Prop where
  state : s.state = .halted fault
  advance : ∀ input elapsed patience,
    s.advance input elapsed patience = { scheduler := s, ending := .halted fault }
  run : ∀ input slice slices patience,
    s.run input (slice :: slices) patience = { scheduler := s, ending := .halted fault }
  signalled : ∀ input patience,
    s.run input [] patience = { scheduler := s, log := #[.stopRequested] }
  freed : ∀ rom entropy, (s.reset rom entropy).fault = none →
    (s.reset rom entropy).after.state = .running

/-- A scheduler as it was left by a cycle that was due in the course of an advance, ended in a fault
and halted it. -/
inductive CutOff (settings : Settings) (fault : Fault) : Scheduler → Prop where
  | cycle {s t : Scheduler} {input : Input} {elapsed n : Nat} (reachable : Reachable settings s)
      (running : s.state = .running) (fits : s.Fits elapsed)
      (course : t =
        (Progress.settle { scheduler := s.owe (s.accepted elapsed) } input n).scheduler)
      (due : t.due = some .cycle) (faulted : (t.machine.step input).fault = some fault)
      (halted : (t.cycle input).after.state = .halted fault) :
      CutOff settings fault (t.cycle input).after

section

variable (h : s.state = .halted fault)
include h

theorem run_of_halted (input : Input) (slice : Nat) (slices : List Nat) (patience : Nat) :
    s.run input (slice :: slices) patience = { scheduler := s, ending := .halted fault } := by
  simp only [run, Run.go, resume_of_halted h, advance_of_halted h]
  rfl

theorem run_nil_of_halted (input : Input) (patience : Nat) :
    s.run input [] patience = { scheduler := s, log := #[.stopRequested] } := by
  simp only [run, Run.go, resume_of_halted h, Run.finish, stop_of_halted h]
  rfl

end

theorem state_reset_of_ok {rom : Rom} {entropy : ChaCha.Key}
    (h : (s.reset rom entropy).fault = none) : (s.reset rom entropy).after.state = .running := by
  simp only [reset] at h ⊢
  split at h
  · rfl
  · cases h

theorem after_reset_of_refused {rom : Rom} {entropy : ChaCha.Key}
    (h : (s.reset rom entropy).fault ≠ none) : (s.reset rom entropy).after = s := by
  simp only [reset] at h ⊢
  split at h
  · exact absurd rfl h
  · rfl

theorem latched_of_halted (h : s.state = .halted fault) : s.Latched fault := by
  constructor
  · exact h
  · exact advance_of_halted h
  · exact run_of_halted h
  · exact run_nil_of_halted h
  · intro rom entropy restarted
    exact state_reset_of_ok restarted

theorem state_operate_of_halted (h : s.state = .halted fault) {operation : Operation}
    (kept : ¬s.Restarts operation) (input : Input) (patience : Nat) :
    (s.operate input patience operation).scheduler.state = .halted fault := by
  cases operation with
  | advance elapsed => simpa only [operate, advance_of_halted h] using h
  | stop => simpa only [operate, stop_of_halted h] using h
  | resume => simpa only [operate, resume_of_halted h] using h
  | run slices =>
    cases slices with
    | nil => simpa only [operate, run_nil_of_halted h] using h
    | cons slice slices => simpa only [operate, run_of_halted h] using h
  | reset rom entropy => simpa only [operate, after_reset_of_refused kept] using h
  | machine command => exact h

theorem Later.state (later : s.Later t) (h : s.state = .halted fault) :
    t.state = .halted fault := by
  induction later with
  | now => exact h
  | operate input patience operation _ kept ih =>
    exact state_operate_of_halted ih kept input patience

end Scheduler

/-- Tasks that leave a running scheduler halted end with the cycle that halts it. -/
theorem Progress.cut_settle {p : Progress} {input : Input} {limit : Nat} {fault : Fault}
    (running : p.scheduler.state = .running)
    (halted : (p.settle input limit).scheduler.state = .halted fault) :
    ∃ n, (p.settle input n).scheduler.due = some .cycle ∧
      ((p.settle input n).scheduler.machine.step input).fault = some fault ∧
      (p.settle input limit).scheduler = ((p.settle input n).scheduler.cycle input).after := by
  induction limit generalizing p with
  | zero =>
    change p.scheduler.state = .halted fault at halted
    rw [running] at halted
    cases halted
  | succ limit ih =>
    cases due : p.scheduler.due with
    | none =>
      rw [settle_of_idle due, running] at halted
      cases halted
    | some task =>
      rw [settle_of_due due] at halted ⊢
      rcases p.scheduler.state_perform input task with still | ⟨other, gone⟩
      · obtain ⟨n, hd, hf, hs⟩ := ih (still.trans running) halted
        refine ⟨n + 1, ?_⟩
        rw [settle_of_due due]
        exact ⟨hd, hf, hs⟩
      · have idle := settle_of_idle (p := p.perform input task) (Scheduler.due_of_halted gone) input
        rw [idle] at halted ⊢
        cases task with
        | tick =>
          change p.scheduler.state = .halted fault at halted
          rw [running] at halted
          cases halted
        | cycle =>
          change (p.scheduler.perform input .cycle).after.state = .halted fault at halted
          rw [Scheduler.after_cycle, running] at halted
          exact ⟨0, due, (RunState.eq_of_after halted).1, rfl⟩

namespace Scheduler

variable {settings : Settings} {s t : Scheduler} {input : Input} {fault : Fault}

theorem halted_advance_cases {elapsed patience : Nat}
    (halted : (s.advance input elapsed patience).scheduler.state = .halted fault) :
    s.state = .halted fault ∨ (s.state = .running ∧ s.Fits elapsed) := by
  cases state : s.state with
  | stopped =>
    rw [advance_of_stopped state] at halted
    cases state.symm.trans halted
  | halted other =>
    rw [advance_of_halted state] at halted
    exact Or.inl (state.symm.trans halted)
  | running =>
    by_cases fits : s.Fits elapsed
    · exact Or.inr ⟨rfl, fits⟩
    · rw [advance_of_not_fits state fits] at halted
      cases state.symm.trans halted

theorem ending_of_halted {elapsed patience : Nat}
    (halted : (s.advance input elapsed patience).scheduler.state = .halted fault) :
    (s.advance input elapsed patience).ending = .halted fault := by
  rcases halted_advance_cases halted with before | ⟨running, fits⟩
  · rw [advance_of_halted before]
  · rw [advance_of_fits running fits] at halted ⊢
    simp only [payOff, Progress.ending] at halted ⊢
    rw [halted]

theorem cutOff_of_advance (h : s.Reachable settings) (running : s.state = .running)
    {elapsed patience : Nat} (fits : s.Fits elapsed)
    (halted : (s.advance input elapsed patience).scheduler.state = .halted fault) :
    CutOff settings fault (s.advance input elapsed patience).scheduler := by
  rw [advance_of_fits running fits] at halted ⊢
  simp only [payOff] at halted ⊢
  obtain ⟨n, due, faulted, hs⟩ :=
    Progress.cut_settle (p := { scheduler := s.owe (s.accepted elapsed) }) running halted
  rw [hs] at halted ⊢
  exact .cycle h running fits rfl due faulted halted

theorem halted_of_stop (h : s.stop.state = .halted fault) : s.state = .halted fault := by
  simp only [stop] at h
  split at h
  · cases h
  · exact h

theorem halted_of_resume (h : s.resume.state = .halted fault) : s.state = .halted fault := by
  simp only [resume] at h
  split at h
  · cases h
  · exact h

def Explained (settings : Settings) (s : Scheduler) : Prop :=
  ∀ fault, s.state = .halted fault → ∃ first, CutOff settings fault first ∧ first.Later s

theorem Explained.later (h : s.Explained settings) (operation : Operation)
    (kept : ¬s.Restarts operation) (input : Input) (patience : Nat)
    (before : ∀ fault, (s.operate input patience operation).scheduler.state = .halted fault →
      s.state = .halted fault) :
    (s.operate input patience operation).scheduler.Explained settings := by
  intro fault halted
  obtain ⟨first, cut, later⟩ := h fault (before fault halted)
  exact ⟨first, cut, .operate input patience operation later kept⟩

theorem Explained.advance (h : s.Explained settings) (reached : s.Reachable settings)
    (input : Input) (elapsed patience : Nat) :
    (s.advance input elapsed patience).scheduler.Explained settings := by
  intro fault halted
  rcases halted_advance_cases halted with before | ⟨running, fits⟩
  · rw [advance_of_halted before]
    exact h fault before
  · exact ⟨_, cutOff_of_advance reached running fits halted, .now⟩

theorem Explained.reset (h : s.Explained settings) (rom : Rom) (entropy : ChaCha.Key) :
    (s.reset rom entropy).after.Explained settings := by
  by_cases restarted : (s.reset rom entropy).fault = none
  · intro fault halted
    cases (state_reset_of_ok restarted).symm.trans halted
  · rw [after_reset_of_refused restarted]
    exact h

theorem Reachable.explained (h : s.Reachable settings) : s.Explained settings := by
  induction h with
  | fresh =>
    intro fault halted
    cases halted
  | @operate s input patience operation reached ih =>
    have both : (s.operate input patience operation).scheduler.Reachable settings ∧
        (s.operate input patience operation).scheduler.Explained settings := by
      apply operate_keeps (P := fun s => s.Reachable settings ∧ s.Explained settings) _ _ _ _ _
        ⟨reached, ih⟩
      · rintro s elapsed ⟨reached, h⟩
        exact ⟨.operate input patience (.advance elapsed) reached,
          h.advance reached input elapsed patience⟩
      · rintro s ⟨reached, h⟩
        exact ⟨.operate input patience .stop reached,
          h.later .stop id input patience fun _ => halted_of_stop⟩
      · rintro s ⟨reached, h⟩
        exact ⟨.operate input patience .resume reached,
          h.later .resume id input patience fun _ => halted_of_resume⟩
      · rintro s rom entropy ⟨reached, h⟩
        exact ⟨.operate input patience (.reset rom entropy) reached, h.reset rom entropy⟩
      · rintro s command ⟨reached, h⟩
        exact ⟨.operate input patience (.machine command) reached,
          h.later (.machine command) id input patience fun _ => id⟩
    exact both.2

theorem CutOff.fatal (h : CutOff settings fault s) : fault.isFatal = true := by
  cases h with
  | @cycle _ t _ _ _ _ _ _ _ due _ halted =>
    change (t.perform _ .cycle).after.state = .halted fault at halted
    rw [after_cycle, running_of_due due] at halted
    exact (RunState.eq_of_after halted).2

theorem CutOff.kind (h : CutOff settings fault s) :
    (∃ address, fault = .memory address) ∨ fault = .stackUnderflow ∨
      ∃ limit, fault = .stackOverflow limit := by
  have fatal := h.fatal
  cases h with
  | cycle _ _ _ _ _ faulted => exact Machine.kind_of_fatal faulted fatal

theorem cycle_of_unknown {word : UInt16}
    (h : (s.machine.step input).fault = some (.unknownInstruction word)) :
    (s.cycle input).after.state = s.state ∧ (s.cycle input).fault = none := by
  simp only [cycle, h, afterFault, Fault.isFatal]
  exact ⟨rfl, rfl⟩

theorem halt_latches {settings : Settings} {s : Scheduler} (h : s.Reachable settings) :
    (∀ fault, s.state = .halted fault →
      (∀ t, s.Later t → t.Latched fault) ∧
      (∃ first, CutOff settings fault first ∧ first.Later s) ∧
      ((∃ address, fault = .memory address) ∨ fault = .stackUnderflow ∨
        ∃ limit, fault = .stackOverflow limit)) ∧
    ∀ (t : Scheduler) (input : Input) (word : UInt16),
      (t.machine.step input).fault = some (.unknownInstruction word) →
      (t.cycle input).after.state = t.state ∧ (t.cycle input).fault = none := by
  constructor
  · intro fault halted
    obtain ⟨first, cut, later⟩ := h.explained fault halted
    refine ⟨?_, ⟨first, cut, later⟩, cut.kind⟩
    intro t ht
    exact latched_of_halted (ht.state halted)
  · intro t input word unknown
    exact cycle_of_unknown unknown

/-- A return with nowhere to go halts the scheduler, and a new program for the machine alone does
not help. -/
theorem halt_latches_underflow :
    let rom : Rom := ⟨#[0x00, 0xEE]⟩
    let entropy : ChaCha.Key := .replicate 8 0
    let s := ((fresh (Machine.boot rom {} entropy).after).operate .silent 0
      (.advance 3000000)).scheduler
    let renewed := (s.operate .silent 0 (.machine (.reset rom entropy))).scheduler
    let t := (renewed.operate .silent 0 .resume).scheduler
    s.state = .halted .stackUnderflow ∧ t.machine.pc = Rom.start ∧ t.Latched .stackUnderflow ∧
      ∃ first, CutOff {} .stackUnderflow first ∧ first.Later s := by
  intro rom entropy s renewed t
  have h : s.Reachable {} := .operate .silent 0 (.advance 3000000) (.fresh (.boot rom entropy rfl))
  have halted : s.state = .halted .stackUnderflow := by decide +kernel
  have later : s.Later renewed := .operate .silent 0 _ .now id
  obtain ⟨latched, cut, -⟩ := (halt_latches h).1 .stackUnderflow halted
  exact ⟨halted, by decide +kernel, latched t (.operate .silent 0 .resume later id), cut⟩

end Scheduler

end Chip8
