import Mathlib.Algebra.Order.Ring.Nat
import Chip8.Proofs.Settling

/-! How a host cuts time into slices, and where it stops and resumes in between, makes no
difference: a scheduler comes to where it would be had it spent all the time it heard of at once. -/

namespace Chip8

namespace Scheduler

variable {s r q : Scheduler}

inductive Call where
  | advance (elapsed : Nat)
  | stop
  | resume

structure Passage extends Progress where
  endings : List Ending := []

def drive (s : Scheduler) (input : Input) (patience : Nat) : List Call → Passage
  | [] => { scheduler := s }
  | .advance elapsed :: rest =>
    let stretch := s.advance input elapsed patience
    let later := stretch.scheduler.drive input patience rest
    { later with
      toProgress := stretch.toProgress.append later.toProgress
      endings := stretch.ending :: later.endings }
  | .stop :: rest => s.stop.drive input patience rest
  | .resume :: rest => s.resume.drive input patience rest

def heard (s : Scheduler) (input : Input) (patience : Nat) : List Call → List Nat
  | [] => []
  | .advance elapsed :: rest =>
    let later := (s.advance input elapsed patience).scheduler.heard input patience rest
    if s.state = .stopped then later else elapsed :: later
  | .stop :: rest => s.stop.heard input patience rest
  | .resume :: rest => s.resume.heard input patience rest

/-- A halted machine pays nothing back any more, so its debts do not count. -/
structure Agrees (r q : Scheduler) : Prop where
  machine : r.machine = q.machine
  state : r.state = q.state
  debts : q.state = .running →
    r.instructionDebt = q.instructionDebt ∧ r.timerDebt = q.timerDebt

theorem Agrees.refl (s : Scheduler) : s.Agrees s := ⟨rfl, rfl, fun _ => ⟨rfl, rfl⟩⟩

theorem resume_of_ne_stopped (h : s.state ≠ .stopped) : s.resume = s := by
  unfold resume
  split
  · contradiction
  · rfl

theorem resume_stop (s : Scheduler) : s.stop.resume = s.resume := by
  obtain ⟨machine, instructionDebt, timerDebt, state⟩ := s
  cases state <;> rfl

theorem resume_resume (s : Scheduler) : s.resume.resume = s.resume := by
  obtain ⟨machine, instructionDebt, timerDebt, state⟩ := s
  cases state <;> rfl

theorem accepted_of_settings (h : r.machine.settings = s.machine.settings) :
    r.accepted = s.accepted := by
  funext elapsed
  simp only [accepted]
  rw [h]

theorem ne_stopped_spend (h : s.state = .running) (input : Input) (time : Nat) :
    (s.spend input time).scheduler.state ≠ .stopped := by
  rcases s.state_spend input time with he | ⟨fault, he⟩ <;> rw [he]
  · rw [h]
    decide
  · simp

/-- Calls come to what the time heard in them would come to at once. -/
theorem drive_agrees (hp : s.Paced) (hd : s.resume.due = none) (input : Input) (patience : Nat)
    (calls : List Call) (fits : .overflow ∉ (s.drive input patience calls).endings) :
    (s.drive input patience calls).performed =
        (s.resume.spend input ((s.heard input patience calls).map s.accepted).sum).performed ∧
      (s.drive input patience calls).scheduler.resume.Agrees
        (s.resume.spend input
          ((s.heard input patience calls).map s.accepted).sum).scheduler := by
  -- for every scheduler with nothing due, because each slice leaves such a one behind
  induction calls generalizing s with
  | nil =>
    have hz : s.resume.spend input 0 = { scheduler := s.resume } := spend_zero hd input
    simp only [drive, heard, List.map_nil, List.sum_nil, hz]
    exact ⟨trivial, .refl _⟩
  | cons call rest ih =>
    cases call with
    | stop =>
      have ha := accepted_of_settings (s.settings_stop)
      have h := ih (hp.of_settings s.settings_stop) (s.resume_stop ▸ hd) fits
      rwa [s.resume_stop, ha] at h
    | resume =>
      have ha := accepted_of_settings (s.settings_resume)
      have h := ih (hp.of_settings s.settings_resume) (s.resume_resume.symm ▸ hd) fits
      rwa [s.resume_resume, ha] at h
    | advance elapsed =>
      simp only [drive, List.mem_cons, not_or] at fits
      cases state : s.state with
      | stopped =>
        simp only [drive, heard, advance_of_stopped state, state, if_true] at fits ⊢
        have h := ih hp hd fits.2
        simpa [Progress.append] using h
      | halted fault =>
        have hr : s.resume = s := resume_of_ne_stopped (by simp [state])
        simp only [drive, heard, advance_of_halted state, state] at fits ⊢
        obtain ⟨performed, agrees⟩ := ih hp hd fits.2
        rw [hr, spend_of_halted state] at performed agrees
        rw [hr, spend_of_halted state]
        refine ⟨by simpa [Progress.append] using performed, agrees.machine, agrees.state, ?_⟩
        intro running
        rw [state_owe, state] at running
        cases running
      | running =>
        have hr : s.resume = s := resume_of_ne_stopped (by simp [state])
        have hs := advance_of_running hp state input elapsed patience (Ne.symm fits.1)
        have hn := ne_stopped_spend state input (s.accepted elapsed)
        have hq : (s.spend input (s.accepted elapsed)).scheduler.resume = _ :=
          resume_of_ne_stopped hn
        have ha := accepted_of_settings (s.settings_spend input (s.accepted elapsed))
        simp only [drive, heard, hs, state] at fits ⊢
        obtain ⟨performed, agrees⟩ :=
          ih (hp.spend input _) (by rw [hq]; exact due_spend hp input _) fits.2
        rw [hq, ha] at performed agrees
        rw [hr]
        simp only [reduceCtorEq, if_false, List.map_cons, List.sum_cons, spend_add hp]
        exact ⟨by simp [Progress.append, performed], agrees⟩

theorem ne_stopped_advance (hp : s.Paced) (h : s.state ≠ .stopped) (input : Input)
    (elapsed patience : Nat) :
    (s.advance input elapsed patience).scheduler.state ≠ .stopped := by
  cases state : s.state with
  | stopped => contradiction
  | halted fault => rwa [advance_of_halted state]
  | running =>
    by_cases fits : (s.advance input elapsed patience).ending = .overflow
    · rwa [advance_of_overflow fits]
    · rw [advance_of_running hp state input elapsed patience fits]
      exact ne_stopped_spend state input _

theorem ending_advance (hp : s.Paced) (input : Input) (elapsed patience : Nat)
    (fits : (s.advance input elapsed patience).ending ≠ .overflow) :
    ((s.advance input elapsed patience).ending = .done ∧
        ∀ fault, (s.advance input elapsed patience).scheduler.state ≠ .halted fault) ∨
      ∃ fault, (s.advance input elapsed patience).ending = .halted fault ∧
        (s.advance input elapsed patience).scheduler.state = .halted fault := by
  cases state : s.state with
  | stopped =>
    rw [advance_of_stopped state]
    exact Or.inl ⟨rfl, by simp [state]⟩
  | halted fault =>
    rw [advance_of_halted state]
    exact Or.inr ⟨fault, rfl, state⟩
  | running =>
    rw [advance_of_running hp state input elapsed patience fits]
    rcases ending_spend hp state input (s.accepted elapsed) with ⟨he, hs⟩ | h
    · exact Or.inl ⟨he, by simp [hs]⟩
    · exact Or.inr h

theorem state_drive_of_halted {fault : Fault} (h : s.state = .halted fault) (input : Input)
    (patience : Nat) (calls : List Call) :
    (s.drive input patience calls).scheduler.state = .halted fault := by
  induction calls with
  | nil => exact h
  | cons call rest ih =>
    cases call with
    | advance elapsed =>
      simp only [drive, advance_of_halted h]
      exact ih
    | stop => rwa [drive, stop_of_halted h]
    | resume => rwa [drive, resume_of_halted h]

/-- Every stretch among the calls ends, and those with a fault with the one that the machine stays
halted with. -/
theorem endings_drive (hp : s.Paced) (input : Input) (patience : Nat) (calls : List Call)
    (fits : .overflow ∉ (s.drive input patience calls).endings) :
    ∀ ending ∈ (s.drive input patience calls).endings, ending = .done ∨
      ∃ fault, ending = .halted fault ∧
        (s.drive input patience calls).scheduler.state = .halted fault := by
  induction calls generalizing s with
  | nil => simp [drive]
  | cons call rest ih =>
    cases call with
    | stop => exact ih (hp.of_settings s.settings_stop) fits
    | resume => exact ih (hp.of_settings s.settings_resume) fits
    | advance elapsed =>
      simp only [drive, List.mem_cons, not_or] at fits ⊢
      rintro ending (rfl | hm)
      · rcases ending_advance hp input elapsed patience (Ne.symm fits.1) with ⟨he, _⟩ | h
        · exact Or.inl he
        · obtain ⟨fault, he, hs⟩ := h
          exact Or.inr ⟨fault, he, state_drive_of_halted hs input patience rest⟩
      · exact ih (hp.of_settings (s.settings_advance input elapsed patience)) fits.2 ending hm

def Settled (s : Scheduler) : Prop := s.resume.due = none

theorem due_of_debts (hs : r.state = s.state) (hm : r.machine.settings = s.machine.settings)
    (hi : r.instructionDebt = s.instructionDebt) (ht : r.timerDebt = s.timerDebt) :
    r.due = s.due := by
  obtain ⟨hip, htp⟩ := periods_of_settings hm
  simp only [due, hs, hi, ht, hip, htp]

theorem settled_fresh (hp : s.Paced) (hi : s.instructionDebt = 0) (ht : s.timerDebt = 0) :
    s.Settled := by
  apply due_eq_none_iff.mpr
  intro _
  have hr := hp.of_settings s.settings_resume
  simp only [resume] at hr ⊢
  split at hr
  · exact ⟨hi ▸ hp.instructions, ht ▸ hp.timers⟩
  · exact ⟨hi ▸ hp.instructions, ht ▸ hp.timers⟩

theorem settled_advance (hp : s.Paced) (hs : s.Settled) (input : Input)
    (elapsed patience : Nat) : (s.advance input elapsed patience).scheduler.Settled := by
  cases state : s.state with
  | stopped => rwa [advance_of_stopped state]
  | halted fault => rwa [advance_of_halted state]
  | running =>
    by_cases fits : (s.advance input elapsed patience).ending = .overflow
    · rwa [advance_of_overflow fits]
    · have hq := resume_of_ne_stopped (ne_stopped_spend state input (s.accepted elapsed))
      simp only [Settled]
      rw [advance_of_running hp state input elapsed patience fits]
      simp only
      rw [hq]
      exact due_spend hp input _

theorem settled_stop (hs : s.Settled) : s.stop.Settled := by
  simp only [Settled]
  rwa [s.resume_stop]

theorem settled_resume (hs : s.Settled) : s.resume.Settled := by
  simp only [Settled]
  rwa [s.resume_resume]

theorem settled_reset (hp : s.Paced) (hs : s.Settled) (rom : Rom) (entropy : ChaCha.Key) :
    (s.reset rom entropy).after.Settled := by
  have hr := hp.of_settings (s.settings_reset rom entropy)
  simp only [reset] at hr ⊢
  split
  · rename_i h
    simp only [h] at hr
    exact settled_fresh hr rfl rfl
  · exact hs

theorem settled_of_machine (hs : s.Settled) {m : Machine}
    (h : m.settings = s.machine.settings) : ({ s with machine := m } : Scheduler).Settled := by
  simp only [Settled] at hs ⊢
  rw [← hs]
  simp only [resume]
  split <;> exact due_of_debts rfl h rfl rfl

theorem running_resume (awake : ∀ fault, s.state ≠ .halted fault) : s.resume.state = .running := by
  cases state : s.state with
  | running => simp [resume, state]
  | stopped => simp [resume, state]
  | halted fault => exact absurd state (awake fault)

theorem Settled.debts (h : s.Settled) (awake : ∀ fault, s.state ≠ .halted fault) :
    s.instructionDebt < s.instructionPeriod ∧ s.timerDebt < s.timerPeriod := by
  have short := due_eq_none_iff.mp h (running_resume awake)
  rw [resume_eq] at short
  exact short

/-- What is owed and what comes on top fit together if that leaves room for a period. -/
theorem Settled.fits (h : s.Settled) (running : s.state = .running)
    (room : s.machine.settings.catchUpLimit + max s.instructionPeriod s.timerPeriod ≤
      Time.longest)
    (elapsed : Nat) : s.Fits elapsed := by
  obtain ⟨instructions, timers⟩ := h.debts (by simp [running])
  have accepted : s.accepted elapsed ≤ s.machine.settings.catchUpLimit := Nat.min_le_right _ _
  simp only [Fits, instructionDebt_owe, timerDebt_owe]
  omega

theorem Settled.ending_ne_overflow (h : s.Settled)
    (room : s.machine.settings.catchUpLimit + max s.instructionPeriod s.timerPeriod ≤
      Time.longest)
    (input : Input) (elapsed patience : Nat) :
    (s.advance input elapsed patience).ending ≠ .overflow := by
  intro overflow
  obtain ⟨running, exceeds⟩ := overflow_iff.mp overflow
  exact absurd (h.fits running room elapsed) (Nat.not_le.mpr exceeds)

/-- Nothing is left due by any operation, so long as the periods are positive. -/
theorem settled_operate (hp : s.Paced) (hs : s.Settled) (input : Input) (patience : Nat)
    (operation : Operation) : (s.operate input patience operation).scheduler.Settled := by
  have both : (s.operate input patience operation).scheduler.Paced ∧
      (s.operate input patience operation).scheduler.Settled := by
    apply operate_keeps (P := fun s => s.Paced ∧ s.Settled) _ _ _ _ _ ⟨hp, hs⟩
    · rintro s elapsed ⟨hp, hs⟩
      exact ⟨hp.of_settings (s.settings_advance ..), settled_advance hp hs input elapsed patience⟩
    · rintro s ⟨hp, hs⟩
      exact ⟨hp.of_settings s.settings_stop, settled_stop hs⟩
    · rintro s ⟨hp, hs⟩
      exact ⟨hp.of_settings s.settings_resume, settled_resume hs⟩
    · rintro s rom entropy ⟨hp, hs⟩
      exact ⟨hp.of_settings (s.settings_reset rom entropy), settled_reset hp hs rom entropy⟩
    · rintro s command ⟨hp, hs⟩
      have same := s.machine.settings_obey input command
      exact ⟨hp.of_settings same, settled_of_machine hs same⟩
  exact both.2

theorem Reachable.settled {settings : Settings} (h : Reachable settings s) (hp : s.Paced) :
    s.Settled := by
  induction h with
  | fresh => exact settled_fresh hp rfl rfl
  | operate input patience operation _ ih =>
    have hq := hp.of_settings (settings_operate _ input patience operation).symm
    exact settled_operate hq (ih hq) input patience operation

theorem drive_concat_resume (s : Scheduler) (input : Input) (patience : Nat)
    (calls : List Call) :
    (s.drive input patience (calls ++ [.resume])).scheduler =
      (s.drive input patience calls).scheduler.resume := by
  induction calls generalizing s with
  | nil => rfl
  | cons call rest ih => cases call <;> exact ih _

theorem drive_agrees_drive (hp : s.Paced) (hd : s.Settled) (input : Input) (patience : Nat)
    {calls others : List Call} (hc : calls.getLast? = some .resume)
    (ho : others.getLast? = some .resume)
    (fits : .overflow ∉ (s.drive input patience calls).endings)
    (fits' : .overflow ∉ (s.drive input patience others).endings)
    (same : ((s.heard input patience calls).map s.accepted).sum =
      ((s.heard input patience others).map s.accepted).sum) :
    (s.drive input patience calls).scheduler.Agrees
      (s.drive input patience others).scheduler := by
  obtain ⟨_, h⟩ := drive_agrees hp hd input patience calls fits
  obtain ⟨_, h'⟩ := drive_agrees hp hd input patience others fits'
  obtain ⟨before, rfl⟩ := List.getLast?_eq_some_iff.mp hc
  obtain ⟨before', rfl⟩ := List.getLast?_eq_some_iff.mp ho
  rw [drive_concat_resume, resume_resume] at h h'
  rw [drive_concat_resume, drive_concat_resume]
  rw [same] at h
  refine ⟨h.machine.trans h'.machine.symm, h.state.trans h'.state.symm, fun running => ?_⟩
  have hr := h'.state ▸ running
  obtain ⟨hi, ht⟩ := h.debts hr
  obtain ⟨hi', ht'⟩ := h'.debts hr
  exact ⟨hi.trans hi'.symm, ht.trans ht'.symm⟩

theorem map_accepted_of_le {limit : Nat} {slices : List Nat}
    (hl : s.machine.settings.catchUpLimit = limit) (h : ∀ elapsed ∈ slices, elapsed ≤ limit) :
    slices.map s.accepted = slices := by
  refine (List.map_congr_left fun elapsed he => ?_).trans (List.map_id _)
  exact Nat.min_eq_left (hl ▸ h elapsed he)

theorem mem_of_mem_heard {input : Input} {patience elapsed : Nat} {calls : List Call}
    (h : elapsed ∈ s.heard input patience calls) : .advance elapsed ∈ calls := by
  induction calls generalizing s with
  | nil => cases h
  | cons call rest ih =>
    cases call with
    | stop => exact List.mem_cons_of_mem _ (ih h)
    | resume => exact List.mem_cons_of_mem _ (ih h)
    | advance time =>
      simp only [heard] at h
      split at h
      · exact List.mem_cons_of_mem _ (ih h)
      · rcases List.mem_cons.mp h with rfl | h
        · exact List.mem_cons_self
        · exact List.mem_cons_of_mem _ (ih h)

theorem advance_add (hp : s.Paced) (running : s.state = .running) (input : Input)
    (patience : Nat) {a b : Nat} (small : a + b ≤ s.machine.settings.catchUpLimit)
    (fits : (s.advance input (a + b) patience).ending ≠ .overflow) :
    ((s.advance input a patience).scheduler.advance input b patience).scheduler.Agrees
        (s.advance input (a + b) patience).scheduler ∧
      ((s.advance input a patience).scheduler.advance input b patience).ending =
        (s.advance input (a + b) patience).ending := by
  have hab : s.accepted (a + b) = a + b := Nat.min_eq_left small
  have ha : s.accepted a = a := Nat.min_eq_left (by omega)
  have within := mt (fun exceeds => overflow_iff.mpr ⟨running, exceeds⟩) fits
  have fitsA : (s.advance input a patience).ending ≠ .overflow := by
    intro h
    have exceeds := (overflow_iff.mp h).2
    rw [ha] at exceeds
    rw [hab] at within
    omega
  have hsettings := s.settings_spend input a
  have hb : (s.spend input a).scheduler.accepted b = b := by
    rw [accepted_of_settings hsettings]
    exact Nat.min_eq_left (by omega)
  have hq := hp.spend input a
  rw [advance_of_running hp running input a patience fitsA, ha,
    advance_of_running hp running input (a + b) patience fits, hab]
  simp only
  rw [spend_add hp]
  rcases ending_spend hp running input a with ⟨-, hr⟩ | ⟨fault, -, halted⟩
  · -- the first stretch leaves no more owed than it brought, so the second one fits too
    have fitsB : ((s.spend input a).scheduler.advance input b patience).ending ≠ .overflow := by
      intro h
      have exceeds := (overflow_iff.mp h).2
      obtain ⟨hi, ht⟩ := Progress.debts_settle_le { scheduler := s.owe a } input
        (s.owe a).workload
      rw [hab] at within
      rw [hb] at exceeds
      simp only [spend, Progress.settled, instructionDebt_owe, timerDebt_owe] at exceeds hi ht
      omega
    rw [advance_of_running hq hr input b patience fitsB, hb]
    exact ⟨.refl _, rfl⟩
  · rw [advance_of_halted halted, spend_of_halted halted]
    refine ⟨⟨rfl, rfl, fun hr => ?_⟩, ?_⟩
    · change (s.spend input a).scheduler.state = .running at hr
      rw [halted] at hr
      cases hr
    · simp [Progress.ending, halted]

/-- An unknown word after one millisecond, and after the next one a tick and then a return that
has nowhere to go. -/
def strayReturn : Machine :=
  (Machine.boot ⟨#[0x80, 0x08, 0x00, 0xEE]⟩
    { clockRate := 1000, timerRate := 500, seed := some 1 } (.replicate 8 0)).after

theorem slicing_and_pausing_irrelevant {settings : Settings} {s : Scheduler}
    (h : s.Reachable settings) (running : s.state = .running) (hp : s.Paced) (input : Input)
    (patience : Nat) :
    (∀ calls others : List Call,
      calls.getLast? = some .resume → others.getLast? = some .resume →
      (∀ elapsed, .advance elapsed ∈ calls ++ others → elapsed ≤ settings.catchUpLimit) →
      .overflow ∉ (s.drive input patience calls).endings →
      .overflow ∉ (s.drive input patience others).endings →
      (s.heard input patience calls).sum = (s.heard input patience others).sum →
      (s.drive input patience calls).scheduler.Agrees
        (s.drive input patience others).scheduler) ∧
    ∀ a b, a + b ≤ settings.catchUpLimit →
      (s.advance input (a + b) patience).ending ≠ .overflow →
      ((s.advance input a patience).scheduler.advance input b patience).scheduler.Agrees
          (s.advance input (a + b) patience).scheduler ∧
        ((s.advance input a patience).scheduler.advance input b patience).ending =
          (s.advance input (a + b) patience).ending := by
  have hl : s.machine.settings.catchUpLimit = settings.catchUpLimit := by
    rw [h.settings_eq]
  constructor
  · intro calls others hc ho small fits fits' same
    have accepted : ∀ list : List Call, (∀ call ∈ list, call ∈ calls ++ others) →
        (s.heard input patience list).map s.accepted = s.heard input patience list := by
      intro list hm
      apply map_accepted_of_le hl
      intro elapsed he
      exact small elapsed (hm _ (mem_of_mem_heard he))
    refine drive_agrees_drive hp (h.settled hp) input patience hc ho fits fits' ?_
    rwa [accepted calls (fun call => List.mem_append_left _),
      accepted others (fun call => List.mem_append_right _)]
  · intro a b small fits
    exact advance_add hp running input patience (hl ▸ small) fits

theorem slicing_and_pausing_irrelevant_stray_return :
    let s := fresh strayReturn
    let calls : List Call :=
      [.advance 1500000, .stop, .advance 9, .resume, .advance 700000, .resume]
    let others : List Call := [.advance 2200000, .resume]
    (s.heard .silent 0 calls).sum = (s.heard .silent 0 others).sum ∧
      (s.drive .silent 0 calls).scheduler.Agrees (s.drive .silent 0 others).scheduler ∧
      (s.drive .silent 0 others).scheduler.state = .halted .stackUnderflow ∧
      ((s.advance .silent 1500000).scheduler.advance .silent 700000).ending =
        .halted .stackUnderflow := by
  intro s calls others
  have h : s.Reachable { clockRate := 1000, timerRate := 500, seed := some 1 } :=
    .fresh (.boot ⟨#[0x80, 0x08, 0x00, 0xEE]⟩ (.replicate 8 0) (by decide +kernel))
  have hp : s.Paced := ⟨by decide +kernel, by decide +kernel⟩
  obtain ⟨agrees, sum⟩ :=
    slicing_and_pausing_irrelevant h (by decide +kernel) hp .silent 0
  have same : (s.heard .silent 0 calls).sum = (s.heard .silent 0 others).sum := by
    decide +kernel
  have small : ∀ elapsed, Call.advance elapsed ∈ calls ++ others → elapsed ≤ 250000000 := by
    simp [calls, others]
  refine ⟨same, ?_, by decide +kernel, ?_⟩
  · exact agrees calls others rfl rfl small (by decide +kernel) (by decide +kernel) same
  · exact (sum 1500000 700000 (by decide) (by decide +kernel)).2.trans (by decide +kernel)

end Scheduler

end Chip8
