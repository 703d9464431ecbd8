import Chip8.Proofs.Course
import Chip8.Proofs.Slicing

/-! Which tasks a scheduler performs, and in which order. Cycles are due at the multiples of one
period and ticks at those of the other, and both are performed in the order in which they are due
although a scheduler knows nothing of those times and only keeps two debts. -/

namespace Chip8

structure Appointment where
  time : Nat
  task : Task
  deriving DecidableEq

def Appointment.Before (a b : Appointment) : Prop :=
  a.time < b.time ∨ (a.time = b.time ∧ a.task = .tick ∧ b.task = .cycle)

/-- A list of all that is due up to a time, with nothing in it twice. -/
structure Agenda (instructionPeriod timerPeriod latest : Nat) (due : List Appointment) :
    Prop where
  ordered : due.Pairwise Appointment.Before
  cycles : ∀ t, ⟨t, .cycle⟩ ∈ due ↔ ∃ k, 1 ≤ k ∧ t = k * instructionPeriod ∧ t ≤ latest
  ticks : ∀ t, ⟨t, .tick⟩ ∈ due ↔ ∃ j, 1 ≤ j ∧ t = j * timerPeriod ∧ t ≤ latest

namespace Agenda

variable {instructionPeriod timerPeriod : Nat}

def tasksAt (instructionPeriod timerPeriod t : Nat) : List Task :=
  (if timerPeriod ∣ t then [.tick] else []) ++ if instructionPeriod ∣ t then [.cycle] else []

def upTo (instructionPeriod timerPeriod : Nat) : Nat → List Appointment
  | 0 => []
  | t + 1 =>
    upTo instructionPeriod timerPeriod t ++
      (tasksAt instructionPeriod timerPeriod (t + 1)).map (⟨t + 1, ·⟩)

theorem mem_tasksAt {t : Nat} {task : Task} :
    task ∈ tasksAt instructionPeriod timerPeriod t ↔
      match task with
      | .cycle => instructionPeriod ∣ t
      | .tick => timerPeriod ∣ t := by
  cases task <;> simp [tasksAt]

theorem mem_upTo {latest t : Nat} {task : Task} :
    ⟨t, task⟩ ∈ upTo instructionPeriod timerPeriod latest ↔
      1 ≤ t ∧ t ≤ latest ∧ task ∈ tasksAt instructionPeriod timerPeriod t := by
  induction latest with
  | zero =>
    simp only [upTo, List.not_mem_nil, false_iff]
    omega
  | succ latest ih =>
    simp only [upTo, List.mem_append, ih, List.mem_map, Appointment.mk.injEq]
    constructor
    · rintro (⟨h1, h2, hm⟩ | ⟨_, hm, rfl, rfl⟩)
      · exact ⟨h1, by omega, hm⟩
      · exact ⟨by omega, Nat.le_refl _, hm⟩
    · rintro ⟨h1, h2, hm⟩
      by_cases he : t = latest + 1
      · exact Or.inr ⟨task, he ▸ hm, he.symm, rfl⟩
      · exact Or.inl ⟨h1, by omega, hm⟩

theorem ordered_upTo (latest : Nat) :
    (upTo instructionPeriod timerPeriod latest).Pairwise Appointment.Before := by
  induction latest with
  | zero => exact .nil
  | succ latest ih =>
    refine List.pairwise_append.mpr ⟨ih, ?_, ?_⟩
    · simp only [tasksAt]
      split <;> split <;> simp [Appointment.Before]
    · intro a ha b hb
      obtain ⟨task, -, rfl⟩ := List.mem_map.mp hb
      have h : a.time ≤ latest := (mem_upTo.mp ha).2.1
      exact Or.inl (Nat.lt_succ_of_le h)

theorem multiple_iff {n t latest : Nat} (hn : 0 < n) :
    1 ≤ t ∧ t ≤ latest ∧ n ∣ t ↔ ∃ k, 1 ≤ k ∧ t = k * n ∧ t ≤ latest := by
  constructor
  · rintro ⟨h1, h2, k, rfl⟩
    exact ⟨k, Nat.pos_of_mul_pos_left h1, Nat.mul_comm n k, h2⟩
  · rintro ⟨k, h1, rfl, h2⟩
    exact ⟨Nat.mul_pos h1 hn, h2, Nat.dvd_mul_left n k⟩

theorem agenda_upTo (hi : 0 < instructionPeriod) (ht : 0 < timerPeriod) (latest : Nat) :
    Agenda instructionPeriod timerPeriod latest
      (upTo instructionPeriod timerPeriod latest) where
  ordered := ordered_upTo latest
  cycles t := by
    rw [mem_upTo, mem_tasksAt]
    exact multiple_iff hi
  ticks t := by
    rw [mem_upTo, mem_tasksAt]
    exact multiple_iff ht

theorem tasks_upTo_succ (latest : Nat) :
    (upTo instructionPeriod timerPeriod (latest + 1)).map Appointment.task =
      (upTo instructionPeriod timerPeriod latest).map Appointment.task ++
        tasksAt instructionPeriod timerPeriod (latest + 1) := by
  simp [upTo, List.map_map, Function.comp_def]

theorem succ_mod {n : Nat} (hn : 0 < n) (t : Nat) :
    (n ∣ t + 1 ↔ t % n + 1 = n) ∧ (t + 1) % n = if n ∣ t + 1 then 0 else t % n + 1 := by
  have hl := Nat.mod_lt t hn
  have he : (t + 1) % n = (t % n + 1) % n := (Nat.mod_add_mod t n 1).symm
  by_cases h : t % n + 1 = n
  · rw [h, Nat.mod_self] at he
    have hd : n ∣ t + 1 := Nat.dvd_of_mod_eq_zero he
    simp [h, hd, he]
  · have hs : (t % n + 1) % n = t % n + 1 := Nat.mod_eq_of_lt (by omega)
    rw [hs] at he
    have hd : ¬n ∣ t + 1 := fun hd => by
      have := Nat.mod_eq_zero_of_dvd hd
      omega
    rw [if_neg hd, he]
    exact ⟨⟨fun h => absurd h hd, fun he => absurd he h⟩, rfl⟩

end Agenda

namespace Progress

variable {p : Progress}

/-- A cycle that becomes due by the last nanosecond is the only one, and the last task. -/
theorem settled_of_last_cycle (hp : p.scheduler.Paced) (running : p.scheduler.state = .running)
    (hi : p.scheduler.instructionDebt ≤ p.scheduler.instructionPeriod)
    (ht : p.scheduler.timerDebt < p.scheduler.timerPeriod) (input : Input) :
    p.settled input =
      if p.scheduler.instructionDebt = p.scheduler.instructionPeriod then p.perform input .cycle
      else p := by
  split
  · rename_i h
    have due : p.scheduler.due = some .cycle :=
      Scheduler.due_eq_cycle_iff.mpr ⟨running, Nat.le_of_eq h.symm, by omega⟩
    rw [settled_of_due hp due]
    refine settled_of_idle (Scheduler.due_eq_none_iff.mpr fun _ => ?_) input
    obtain ⟨paid, kept⟩ := p.scheduler.debts_perform_cycle input
    change (p.scheduler.perform input .cycle).after.instructionDebt < _ ∧
      (p.scheduler.perform input .cycle).after.timerDebt < _
    rw [paid, kept, h, Nat.sub_self]
    exact ⟨(hp.perform input .cycle).instructions, by
      simpa only [perform, Scheduler.timerPeriod_perform] using ht⟩
  · exact settled_of_idle (Scheduler.due_eq_none_iff.mpr fun _ => ⟨by omega, ht⟩) input

theorem settled_of_tick (hp : p.scheduler.Paced) (running : p.scheduler.state = .running)
    (hi : p.scheduler.instructionDebt ≤ p.scheduler.instructionPeriod)
    (ht : p.scheduler.timerDebt = p.scheduler.timerPeriod) (input : Input) :
    p.settled input = (p.perform input .tick).settled input :=
  settled_of_due hp
    (Scheduler.due_eq_tick_iff.mpr ⟨running, Nat.le_of_eq ht.symm, by omega⟩) input

end Progress

/-- One nanosecond more performs what is due at its end, and leaves the debts at what is over
from whole periods. -/
theorem Course.instant {m : Machine} {input : Input} {tasks : List Task} {p : Progress}
    (h : Course m input tasks p) (hp : p.scheduler.Paced)
    (running : p.scheduler.state = .running) {t : Nat}
    (hi : p.scheduler.instructionDebt = t % p.scheduler.instructionPeriod)
    (ht : p.scheduler.timerDebt = t % p.scheduler.timerPeriod) :
    Course m input
        (tasks ++ Agenda.tasksAt p.scheduler.instructionPeriod p.scheduler.timerPeriod (t + 1))
        ((p.owe 1).settled input) ∧
      (((p.owe 1).settled input).scheduler.state = .running →
        ((p.owe 1).settled input).scheduler.instructionDebt =
            (t + 1) % p.scheduler.instructionPeriod ∧
          ((p.owe 1).settled input).scheduler.timerDebt =
            (t + 1) % p.scheduler.timerPeriod) := by
  obtain ⟨cycleDue, cycleOver⟩ := Agenda.succ_mod hp.instructions t
  obtain ⟨tickDue, tickOver⟩ := Agenda.succ_mod hp.timers t
  have hil := Nat.mod_lt t hp.instructions
  have htl := Nat.mod_lt t hp.timers
  have owed : Course m input tasks (p.owe 1) := h.congr rfl rfl rfl
  have ticked : ∃ q : Progress, (p.owe 1).settled input = q.settled input ∧
      Course m input
        (tasks ++ if p.scheduler.timerPeriod ∣ t + 1 then [.tick] else []) q ∧
      q.scheduler.state = .running ∧ q.scheduler.Paced ∧
      q.scheduler.instructionPeriod = p.scheduler.instructionPeriod ∧
      q.scheduler.timerPeriod = p.scheduler.timerPeriod ∧
      q.scheduler.instructionDebt = t % p.scheduler.instructionPeriod + 1 ∧
      q.scheduler.timerDebt = (t + 1) % p.scheduler.timerPeriod := by
    by_cases hd : p.scheduler.timerPeriod ∣ t + 1
    · have hs := Progress.settled_of_tick (p := p.owe 1) (hp.owe 1) running
        (by simp [Progress.owe]; omega) (by simp [Progress.owe]; omega) input
      refine ⟨_, hs, ?_, running, (hp.owe 1).perform input .tick, rfl, rfl, ?_, ?_⟩
      · rw [if_pos hd]
        exact owed.perform running .tick
      · change p.scheduler.instructionDebt + 1 = _
        omega
      · change p.scheduler.timerDebt + 1 - p.scheduler.timerPeriod = _
        rw [tickOver, if_pos hd]
        omega
    · refine ⟨p.owe 1, rfl, ?_, running, hp.owe 1, rfl, rfl, ?_, ?_⟩
      · rw [if_neg hd, List.append_nil]
        exact owed
      · change p.scheduler.instructionDebt + 1 = _
        omega
      · change p.scheduler.timerDebt + 1 = _
        rw [tickOver, if_neg hd]
        omega
  obtain ⟨q, hq, hc, hr, hqp, hqi, hqt, hid, htd⟩ := ticked
  have hlast := Progress.settled_of_last_cycle hqp hr (by omega)
    (by rw [htd, hqt]; exact Nat.mod_lt _ hp.timers) input
  rw [hq, hlast, hqi, hid, Agenda.tasksAt, ← List.append_assoc, cycleOver]
  by_cases hd : p.scheduler.instructionPeriod ∣ t + 1
  · rw [if_pos hd, if_pos hd, if_pos (cycleDue.mp hd)]
    refine ⟨hc.perform hr .cycle, fun _ => ?_⟩
    obtain ⟨paid, kept⟩ := q.scheduler.debts_perform_cycle input
    refine ⟨paid.trans ?_, kept.trans htd⟩
    rw [hid, hqi]
    omega
  · rw [if_neg hd, if_neg hd, if_neg fun he => hd (cycleDue.mpr he), List.append_nil]
    exact ⟨hc, fun _ => ⟨hid, htd⟩⟩

namespace Scheduler

/-- A scheduler as it is when it starts: built around a machine, or reset with a program. -/
inductive Started : Scheduler → Prop where
  | fresh (m : Machine) : Started (fresh m)
  | reset (s : Scheduler) (rom : Rom) (entropy : ChaCha.Key)
      (h : (s.reset rom entropy).fault = none) : Started (s.reset rom entropy).after

variable {s : Scheduler}

theorem Started.eq_fresh (h : s.Started) : s = Scheduler.fresh s.machine := by
  cases h with
  | fresh m => rfl
  | reset s rom entropy h =>
    simp only [Scheduler.reset] at h ⊢
    split
    · rfl
    · rename_i fault hf
      rw [hf] at h
      cases h

theorem course_spend (h : s.Started) (hp : s.Paced) (input : Input) (t : Nat) :
    Course s.machine input
        ((Agenda.upTo s.instructionPeriod s.timerPeriod t).map Appointment.task)
        (s.spend input t) ∧
      ((s.spend input t).scheduler.state = .running →
        (s.spend input t).scheduler.instructionDebt = t % s.instructionPeriod ∧
          (s.spend input t).scheduler.timerDebt = t % s.timerPeriod) := by
  have hf := h.eq_fresh
  have running : s.state = .running := by rw [hf]; rfl
  have hi : s.instructionDebt = 0 := by rw [hf]; rfl
  have ht : s.timerDebt = 0 := by rw [hf]; rfl
  induction t with
  | zero =>
    have idle : s.due = none :=
      due_eq_none_iff.mpr fun _ => ⟨hi ▸ hp.instructions, ht ▸ hp.timers⟩
    rw [spend_zero idle]
    exact ⟨.whole rfl (s.machine.survives_nil input) rfl running, fun _ => by simp [hi, ht]⟩
  | succ t ih =>
    obtain ⟨course, debts⟩ := ih
    have hs := hp.spend input t
    obtain ⟨hip, htp⟩ := periods_of_settings (s.settings_spend input t)
    rw [spend_add_eq_settled hp, Agenda.tasks_upTo_succ]
    rcases course.running_or_halted with hr | ⟨fault, halted⟩
    · obtain ⟨hid, htd⟩ := debts hr
      have := course.instant hs hr (hip.symm ▸ hid) (htp.symm ▸ htd)
      rwa [hip, htp] at this
    · have hq : ((s.spend input t).owe 1).settled input = (s.spend input t).owe 1 :=
        Progress.settled_of_idle (p := (s.spend input t).owe 1) (due_of_halted halted) input
      rw [hq]
      refine ⟨(course.append_of_halted halted _).congr rfl rfl rfl, fun hr => ?_⟩
      change (s.spend input t).scheduler.state = .running at hr
      rw [halted] at hr
      cases hr

theorem heard_advances (hp : s.Paced) (h : s.state ≠ .stopped) (input : Input) (patience : Nat)
    (slices : List Nat) : s.heard input patience (slices.map .advance) = slices := by
  induction slices generalizing s with
  | nil => rfl
  | cons elapsed rest ih =>
    have hq := hp.of_settings (s.settings_advance input elapsed patience)
    have hs := ne_stopped_advance hp h input elapsed patience
    simp only [List.map_cons, heard]
    rw [if_neg h, ih hq hs]

theorem ne_stopped_drive_advances (hp : s.Paced) (h : s.state ≠ .stopped) (input : Input)
    (patience : Nat) (slices : List Nat) :
    (s.drive input patience (slices.map .advance)).scheduler.state ≠ .stopped := by
  induction slices generalizing s with
  | nil => exact h
  | cons elapsed rest ih =>
    exact ih (hp.of_settings (s.settings_advance input elapsed patience))
      (ne_stopped_advance hp h input elapsed patience)

/-- From its start on a scheduler performs what becomes due in the time that it accepts, as if it
knew when that is, and a fatal fault is the only thing that ends this early. -/
theorem performed_when_due (start : s.Started) (hp : s.Paced) (input : Input) (patience : Nat)
    (slices : List Nat)
    (fits : .overflow ∉ (s.drive input patience (slices.map .advance)).endings) :
    ∃ due, Agenda s.instructionPeriod s.timerPeriod (slices.map s.accepted).sum due ∧
      Course s.machine input (due.map Appointment.task)
        (s.drive input patience (slices.map .advance)).toProgress ∧
      ∀ ending ∈ (s.drive input patience (slices.map .advance)).endings,
        ending = .done ∨ ∃ fault, ending = .halted fault ∧
          (s.drive input patience (slices.map .advance)).scheduler.state = .halted fault := by
  have running : s.state = .running := by rw [start.eq_fresh]; rfl
  have hn : s.state ≠ .stopped := by simp [running]
  have hr : s.resume = s := resume_of_ne_stopped hn
  have hd : s.resume.due = none := settled_fresh hp (by rw [start.eq_fresh]; rfl)
    (by rw [start.eq_fresh]; rfl)
  have hq := resume_of_ne_stopped (ne_stopped_drive_advances hp hn input patience slices)
  obtain ⟨performed, agrees⟩ := drive_agrees hp hd input patience (slices.map .advance) fits
  rw [heard_advances hp hn, hr] at performed agrees
  rw [hq] at agrees
  obtain ⟨course, -⟩ := course_spend start hp input (slices.map s.accepted).sum
  refine ⟨_, Agenda.agenda_upTo hp.instructions hp.timers _, ?_, ?_⟩
  · exact course.congr agrees.machine agrees.state performed
  · exact endings_drive hp input patience (slices.map .advance) fits

theorem performed_when_due_stray_return :
    let s := fresh strayReturn
    let passage := s.drive .silent 0 ([1500000, 700000, 5000000].map .advance)
    passage.performed = #[.cycle, .tick, .cycle] ∧
      passage.scheduler.state = .halted .stackUnderflow ∧
      ∃ due, Agenda 1000000 2000000 7200000 due ∧
        Course strayReturn .silent (due.map Appointment.task) passage.toProgress := by
  intro s passage
  have hp : s.Paced := ⟨by decide +kernel, by decide +kernel⟩
  obtain ⟨due, agenda, course, -⟩ := performed_when_due (.fresh strayReturn) hp .silent 0
    [1500000, 700000, 5000000] (by decide +kernel)
  exact ⟨by decide +kernel, by decide +kernel, due, agenda, course⟩

end Scheduler

end Chip8
