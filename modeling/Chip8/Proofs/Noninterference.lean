import Chip8.Proofs.Disguise
import Chip8.Proofs.Course
import Chip8.Proofs.Frame

/-! What the timers give away. A program sees the delay timer only when it reads it, and the sound
timer never, so up to the first reading nothing else tells how often the timers have ticked. -/

namespace Chip8

namespace Machine

variable {m n : Machine} {input : Input} {delay sound : UInt8} {i : Instruction}

def withTimers (delay sound : UInt8) (m : Machine) : Machine := { m with delay, sound }

def SameButTimers (m n : Machine) : Prop := n = m.withTimers n.delay n.sound

def SameButSound (m n : Machine) : Prop := n = m.withTimers m.delay n.sound

def reports (m : Machine) (input : Input) : List Task → List (Option Fault × Log)
  | [] => []
  | .tick :: rest => m.tick.reports input rest
  | .cycle :: rest =>
    ((m.step input).fault, (m.step input).log) :: (m.step input).after.reports input rest

theorem sameButTimers_withTimers (m : Machine) (delay sound : UInt8) :
    m.SameButTimers (m.withTimers delay sound) := rfl

theorem execute_withTimers_of_untimed (h : i.isTimed = false) :
    (m.withTimers delay sound).execute input i =
      (m.execute input i).map (withTimers delay sound) := by
  apply execute_disguised (d := { delay := fun _ => delay, sound := fun _ => sound })
  · exact fun _ => rfl
  · exact fun _ => rfl
  · intro timed
    rw [h] at timed
    cases timed
  · exact fun _ _ _ => rfl

theorem delay_notMem_footprint (h : i.isTimed = false) : Part.delay ∉ i.footprint := by
  cases i with
  | readDelay | setDelay | setSound => cases h
  | _ => simp [Instruction.footprint]

/-- An instruction that does not read a delay timer that is different comes to the same but for the
timers, and a delay timer that was the same stays so. -/
theorem execute_withTimers (unread : ∀ x, i = .readDelay x → delay = m.delay) (sound : UInt8)
    (input : Input) :
    ∃ later now, (m.withTimers delay sound).execute input i =
        (m.execute input i).map (withTimers later now) ∧
      (delay = m.delay → later = (m.execute input i).after.delay) := by
  cases i with
  | setDelay x => exact ⟨m.register x, sound, rfl, fun _ => rfl⟩
  | setSound x => exact ⟨delay, m.register x, rfl, id⟩
  | readDelay x =>
    obtain rfl := unread x rfl
    exact ⟨m.delay, sound, rfl, id⟩
  | _ =>
    refine ⟨delay, sound, execute_withTimers_of_untimed rfl, ?_⟩
    intro same
    exact same.trans (m.same_execute input _ (delay_notMem_footprint rfl)).symm

theorem step_withTimers (unread : ∀ x, m.Executes (.readDelay x) → delay = m.delay)
    (sound : UInt8) (input : Input) :
    ∃ later now, (m.withTimers delay sound).step input =
        (m.step input).map (withTimers later now) ∧
      (delay = m.delay → later = (m.step input).after.delay) := by
  let disguise : Disguise := { delay := fun _ => delay, sound := fun _ => sound }
  rcases m.step_disguised disguise input input with ⟨idle, same⟩ | ⟨i, executes, lift⟩
  · refine ⟨delay, sound, same, ?_⟩
    intro kept
    have still := m.same_step input .delay fun i executes => absurd executes (idle i)
    exact kept.trans still.symm
  · have unreading : ∀ x, i = .readDelay x → delay = m.pastWord.delay := by
      rintro x rfl
      exact unread x executes
    obtain ⟨later, now, same, kept⟩ := execute_withTimers unreading sound input
    rw [(step_of_executes executes input).1]
    exact ⟨later, now, lift _ same, kept⟩

theorem sameButSound_iff : m.SameButSound n ↔ m.SameButTimers n ∧ n.delay = m.delay := by
  constructor
  · intro same
    have kept : n.delay = m.delay := by
      rw [same]
      rfl
    refine ⟨?_, kept⟩
    rw [SameButTimers, kept]
    exact same
  · rintro ⟨same, kept⟩
    rw [SameButTimers, kept] at same
    exact same

theorem SameButTimers.next? (same : m.SameButTimers n) : n.next? = m.next? := by
  rw [same]
  rfl

theorem SameButTimers.step (same : m.SameButTimers n)
    (unread : ∀ x, m.Executes (.readDelay x) → n.delay = m.delay) (input : Input) :
    (m.step input).after.SameButTimers (n.step input).after ∧
      ((n.step input).fault, (n.step input).log) = ((m.step input).fault, (m.step input).log) ∧
      (n.delay = m.delay → (n.step input).after.delay = (m.step input).after.delay) := by
  obtain ⟨later, now, stepped, kept⟩ := step_withTimers unread n.sound input
  rw [← same] at stepped
  rw [stepped]
  exact ⟨rfl, rfl, kept⟩

inductive SameCycles : List Task → List Task → Prop where
  | nil : SameCycles [] []
  | tickLeft {tasks others : List Task} (h : SameCycles tasks others) :
      SameCycles (.tick :: tasks) others
  | tickRight {tasks others : List Task} (h : SameCycles tasks others) :
      SameCycles tasks (.tick :: others)
  | cycle {tasks others : List Task} (h : SameCycles tasks others) :
      SameCycles (.cycle :: tasks) (.cycle :: others)

theorem sameCycles_of_count {tasks others : List Task}
    (h : tasks.count .cycle = others.count .cycle) : SameCycles tasks others := by
  induction tasks generalizing others with
  | nil =>
    induction others with
    | nil => exact .nil
    | cons other others ih =>
      cases other with
      | tick => exact .tickRight (ih h)
      | cycle => simp at h
  | cons task tasks ih =>
    cases task with
    | tick => exact .tickLeft (ih h)
    | cycle =>
      induction others with
      | nil => simp at h
      | cons other others iho =>
        cases other with
        | tick => exact .tickRight (iho h)
        | cycle =>
          rw [List.count_cons_self, List.count_cons_self] at h
          exact .cycle (ih (Nat.succ.inj h))

/-- Until the delay timer is read it does not matter when the timers tick. -/
theorem SameButTimers.follow {tasks others : List Task} (aligned : SameCycles tasks others)
    (same : m.SameButTimers n) (unread : ∀ x, .readDelay x ∉ m.executed input tasks) :
    (m.follow input tasks).SameButTimers (n.follow input others) ∧
      n.reports input others = m.reports input tasks ∧
      n.executed input others = m.executed input tasks := by
  induction aligned generalizing m n with
  | nil => exact ⟨same, rfl, rfl⟩
  | tickLeft _ ih =>
    have ticked : m.tick.SameButTimers n := by
      rw [SameButTimers]
      exact same
    exact ih ticked unread
  | tickRight _ ih =>
    have ticked : m.SameButTimers n.tick := by
      rw [same]
      rfl
    exact ih ticked unread
  | cycle _ ih =>
    simp only [executed, List.mem_append, not_or, Option.mem_toList] at unread
    have unseen : ∀ x, m.Executes (.readDelay x) → n.delay = m.delay := by
      intro x hx
      exact absurd (next?_eq_some_iff.mpr hx) (unread x).1
    obtain ⟨stepped, told, -⟩ := same.step unseen input
    obtain ⟨followed, reported, executes⟩ := ih stepped fun x => (unread x).2
    refine ⟨followed, ?_, ?_⟩
    · rw [reports, reports, told, reported]
    · rw [executed, executed, same.next?, executes]

theorem SameButSound.follow (same : m.SameButSound n) (input : Input) (tasks : List Task) :
    (m.follow input tasks).SameButSound (n.follow input tasks) ∧
      n.reports input tasks = m.reports input tasks := by
  induction tasks generalizing m n with
  | nil => exact ⟨same, rfl⟩
  | cons task tasks ih =>
    cases task with
    | tick =>
      have ticked : m.tick.SameButSound n.tick := by
        rw [same]
        rfl
      exact ih ticked
    | cycle =>
      obtain ⟨timers, delay⟩ := sameButSound_iff.mp same
      obtain ⟨stepped, told, kept⟩ := timers.step (fun _ _ => delay) input
      obtain ⟨followed, reported⟩ := ih (sameButSound_iff.mpr ⟨stepped, kept delay⟩)
      refine ⟨followed, ?_⟩
      rw [reports, reports, told, reported]

theorem timers_seen_when_read {m n : Machine} (same : m.SameButTimers n) (input : Input) :
    (∀ tasks others : List Task, tasks.count .cycle = others.count .cycle →
      (∀ x, .readDelay x ∉ m.executed input tasks) →
      (m.follow input tasks).SameButTimers (n.follow input others) ∧
        n.reports input others = m.reports input tasks ∧
        n.executed input others = m.executed input tasks) ∧
    (n.delay = m.delay → ∀ tasks : List Task,
      (m.follow input tasks).SameButSound (n.follow input tasks) ∧
        n.reports input tasks = m.reports input tasks) := by
  constructor
  · intro tasks others cycles unread
    exact same.follow (sameCycles_of_count cycles) unread
  · intro delay tasks
    exact (sameButSound_iff.mpr ⟨same, delay⟩).follow input tasks

/-- The program sets both timers, draws a random byte and then reads the delay timer. -/
theorem timers_seen_when_read_random :
    let m := (boot ⟨#[0x60, 0x14, 0xF0, 0x15, 0xF0, 0x18, 0xC1, 0xFF, 0xF2, 0x07]⟩
      { seed := some 1 } (.replicate 8 0)).after
    let n := m.withTimers 7 9
    let tasks : List Task := [.tick, .cycle, .tick, .cycle, .cycle, .tick, .tick, .cycle]
    let others : List Task := [.cycle, .cycle, .cycle, .tick, .cycle]
    m.SameButTimers n ∧ tasks.count .cycle = others.count .cycle ∧
      (∀ x, .readDelay x ∉ m.executed .silent tasks) ∧
      (m.follow .silent tasks).SameButTimers (n.follow .silent others) ∧
      n.reports .silent others = m.reports .silent tasks ∧
      (m.follow .silent (tasks ++ [.cycle])).register 2 = 18 ∧
      (n.follow .silent (others ++ [.cycle])).register 2 = 19 ∧
      (m.follow .silent (tasks ++ [.cycle])).SameButSound
        ((m.withTimers 0 9).follow .silent (tasks ++ [.cycle])) := by
  intro m n tasks others
  have executed : m.executed .silent tasks =
      [.load 0 0x14, .setDelay 0, .setSound 0, .random 1 0xFF] := by
    decide +kernel
  have unread : ∀ x, .readDelay x ∉ m.executed .silent tasks := by
    intro x
    rw [executed]
    simp
  have same : m.SameButTimers n := m.sameButTimers_withTimers 7 9
  have cycles : tasks.count .cycle = others.count .cycle := by decide
  obtain ⟨unseen, -⟩ := timers_seen_when_read same .silent
  obtain ⟨-, unheard⟩ := timers_seen_when_read (m.sameButTimers_withTimers 0 9) .silent
  obtain ⟨followed, reported, -⟩ := unseen tasks others cycles unread
  refine ⟨same, cycles, unread, followed, reported, by decide +kernel, by decide +kernel, ?_⟩
  have kept : (m.withTimers 0 9).delay = m.delay := by decide +kernel
  obtain ⟨heard, -⟩ := unheard kept (tasks ++ [.cycle])
  exact heard

end Machine

end Chip8
