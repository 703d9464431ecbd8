import Chip8.Proofs.Course
import Chip8.Proofs.Frame

/-! What the timers show in the course of a run. Each of them shows what it was last set to, less the
ticks since then. Only its own instruction and a start set it, and only ticks take anything off. -/

namespace Chip8

inductive Timer where
  | delay
  | sound
  deriving DecidableEq, Repr

namespace Timer

def part : Timer → Part
  | delay => .delay
  | sound => .sound

def source? : Timer → Instruction → Option UInt8
  | delay, .setDelay x => some x
  | sound, .setSound x => some x
  | _, _ => none

theorem notMem_footprint {timer : Timer} {i : Instruction} (h : timer.source? i = none) :
    timer.part ∉ i.footprint := by
  cases timer <;> cases i <;> simp_all [part, source?, Instruction.footprint]

theorem eq_of_source? {timer other : Timer} {i : Instruction} {x y : UInt8}
    (h : timer.source? i = some x) (h' : other.source? i = some y) : timer = other := by
  cases timer <;> cases other <;> cases i <;> simp_all [source?]

end Timer

namespace Machine

def timer (m : Machine) : Timer → UInt8
  | .delay => m.delay
  | .sound => m.sound

def setting? (m : Machine) (t : Timer) : Command → Option UInt8
  | .step => (m.next?.bind t.source?).map m.register
  | .tick => none
  | .reset rom entropy => if (m.reset rom entropy).fault = none then some 0 else none

def ticks (commands : List Command) : Nat :=
  commands.countP fun | .tick => true | _ => false

/-- The run `before` ends where the timer was set to this value, and nothing in `after` sets it again.
A machine that has just been built has its timers at zero. -/
structure LastSet (m : Machine) (input : Input) (t : Timer) (before after : List Command)
    (value : UInt8) : Prop where
  set : (before = [] ∧ value = 0) ∨ ∃ earlier command, before = earlier ++ [command] ∧
    (m.obeyAll input earlier).setting? t command = some value
  unset : ∀ between command, between ++ [command] <+: after →
    (m.obeyAll input (before ++ between)).setting? t command = none

variable {settings : Settings} {m : Machine} {input : Input} {t : Timer} {value : UInt8}

theorem timer_of_same {n : Machine} (h : t.part.Same m n) : n.timer t = m.timer t := by
  cases t <;> exact h

theorem timer_step_of_other (h : ∀ i, m.Executes i → t.source? i = none) (input : Input) :
    (m.step input).after.timer t = m.timer t := by
  apply timer_of_same
  apply m.same_step
  intro i executes
  exact Timer.notMem_footprint (h i executes)

theorem timer_step_of_source {i : Instruction} {x : UInt8} (executes : m.Executes i)
    (h : t.source? i = some x) (input : Input) :
    (m.step input).fault = none ∧ (m.step input).after.timer t = m.register x := by
  obtain ⟨after, fault⟩ := step_of_executes executes input
  rw [after, fault]
  cases t <;> cases i <;> cases h <;> exact ⟨rfl, rfl⟩

/-- A timer is set by a cycle that ends well, so a fault leaves it alone. -/
theorem timer_step_of_fault (h : (m.step input).fault ≠ none) (t : Timer) :
    (m.step input).after.timer t = m.timer t := by
  apply timer_step_of_other
  intro i executes
  cases source : t.source? i with
  | none => rfl
  | some x => exact absurd (timer_step_of_source executes source input).1 h

theorem timer_start (h : m.Built settings) (t : Timer) : m.timer t = 0 := by
  cases h with
  | blank => cases t <;> rfl
  | boot rom entropy =>
    simp only [Machine.boot]
    split <;> cases t <;> rfl

theorem timer_reset (rom : Rom) (entropy : ChaCha.Key) (t : Timer) :
    (m.reset rom entropy).after.timer t =
      if (m.reset rom entropy).fault = none then 0 else m.timer t := by
  cases placed : Memory.ofRom rom with
  | ok memory => cases t <;> simp [reset, placed, blank, timer]
  | error fault => simp [reset, placed, Outcome.failed]

theorem timer_obey_of_set {command : Command} (h : m.setting? t command = some value)
    (input : Input) : (m.obey input command).after.timer t = value := by
  cases command with
  | tick => cases h
  | step =>
    simp only [setting?, Option.map_eq_some_iff, Option.bind_eq_some_iff] at h
    obtain ⟨x, ⟨i, next, source⟩, rfl⟩ := h
    exact (timer_step_of_source (next?_eq_some_iff.mp next) source input).2
  | reset rom entropy =>
    simp only [setting?] at h
    split at h
    · rename_i restarted
      cases h
      exact (timer_reset rom entropy t).trans (if_pos restarted)
    · cases h

theorem timer_obey_of_unset {command : Command} (h : m.setting? t command = none)
    (input : Input) :
    ((m.obey input command).after.timer t).toNat = (m.timer t).toNat - ticks [command] := by
  cases command with
  | tick => cases t <;> exact toNat_countDown _
  | step =>
    congr 1
    apply timer_step_of_other
    intro i executes
    simp only [setting?, next?_eq_some_iff.mpr executes] at h
    simpa using h
  | reset rom entropy =>
    simp only [setting?] at h
    split at h
    · cases h
    · rename_i refused
      exact congrArg UInt8.toNat ((timer_reset rom entropy t).trans (if_neg refused))

theorem timer_obeyAll_of_unset {commands : List Command}
    (unset : ∀ before command, before ++ [command] <+: commands →
      (m.obeyAll input before).setting? t command = none) :
    ((m.obeyAll input commands).timer t).toNat = (m.timer t).toNat - ticks commands := by
  refine prefix_induction commands rfl ?_
  intro before command listed shown
  have now := timer_obey_of_unset (unset before command listed) input
  have both : ticks (before ++ [command]) = ticks before + ticks [command] := List.countP_append
  rw [obeyAll_concat, now, shown, both, Nat.sub_sub]

theorem timer_of_lastSet {before after : List Command} (built : m.Built settings)
    (last : m.LastSet input t before after value) :
    ((m.obeyAll input (before ++ after)).timer t).toNat = value.toNat - ticks after := by
  have set : (m.obeyAll input before).timer t = value := by
    rcases last.set with ⟨rfl, rfl⟩ | ⟨earlier, command, rfl, set⟩
    · exact timer_start built t
    · rw [obeyAll_concat]
      exact timer_obey_of_set set input
  rw [obeyAll_append, ← set]
  apply timer_obeyAll_of_unset
  intro between command listed
  rw [← obeyAll_append]
  exact last.unset between command listed

theorem exists_lastSet (m : Machine) (input : Input) (t : Timer) (commands : List Command) :
    ∃ before after value, commands = before ++ after ∧
      m.LastSet input t before after value := by
  induction commands using List.reverseRecOn with
  | nil =>
    refine ⟨[], [], 0, rfl, .inl ⟨rfl, rfl⟩, ?_⟩
    intro between command listed
    simp at listed
  | append_singleton earlier command ih =>
    cases setting : (m.obeyAll input earlier).setting? t command with
    | some value =>
      refine ⟨earlier ++ [command], [], value, (List.append_nil _).symm,
        .inr ⟨earlier, command, rfl, setting⟩, ?_⟩
      intro between next listed
      simp at listed
    | none =>
      obtain ⟨before, after, value, rfl, last⟩ := ih
      refine ⟨before, after ++ [command], value, List.append_assoc .., last.set, ?_⟩
      intro between next listed
      rcases List.prefix_concat_iff.mp listed with whole | inside
      · obtain ⟨rfl, ⟨⟩⟩ := List.append_inj' whole rfl
        exact setting
      · exact last.unset between next inside

theorem unset_of_take {before after : List Command}
    (h : ∀ k < after.length,
      after[k]?.bind ((m.obeyAll input (before ++ after.take k)).setting? t) = none) :
    ∀ between command, between ++ [command] <+: after →
      (m.obeyAll input (before ++ between)).setting? t command = none := by
  rintro between command ⟨rest, rfl⟩
  simpa using h between.length (by simp)

theorem isBeeping_iff (m : Machine) : m.isBeeping = true ↔ 0 < (m.timer .sound).toNat := by
  rw [isBeeping, bne_iff_ne, Nat.pos_iff_ne_zero]
  exact not_congr UInt8.toNat_inj.symm

/-- What leaves a timer alone. The instructions that set other timers are those that copy a register
to them. -/
structure Undisturbed (m : Machine) (input : Input) (t : Timer) : Prop where
  fault : (m.step input).fault ≠ none → (m.step input).after.timer t = m.timer t
  unknown : (∀ i, ¬m.Executes i) → (m.step input).after.timer t = m.timer t
  wait : ∀ x, m.Executes (.awaitKey x) → (m.step input).after.timer t = m.timer t
  refused : ∀ rom entropy, (m.reset rom entropy).fault ≠ none →
    (m.reset rom entropy).after.timer t = m.timer t
  other : ∀ other i x, other ≠ t → m.Executes i → Timer.source? other i = some x →
    (m.step input).after.timer t = m.timer t

theorem undisturbed (m : Machine) (input : Input) (t : Timer) : m.Undisturbed input t where
  fault faulted := timer_step_of_fault faulted t
  unknown none := timer_step_of_other (fun i executes => absurd executes (none i)) input
  wait x executes := by
    apply timer_step_of_other
    intro i executes'
    rw [executes'.unique executes]
    cases t <;> rfl
  refused rom entropy refused := (timer_reset rom entropy t).trans (if_neg refused)
  other other i x different executes source := by
    apply timer_step_of_other
    intro j executes'
    rw [executes'.unique executes]
    cases own : t.source? i with
    | none => rfl
    | some y => exact absurd (Timer.eq_of_source? source own) different

theorem timers_run_down_since_set (built : m.Built settings) (input : Input)
    (commands : List Command) (t : Timer) :
    (∃ before after value, commands = before ++ after ∧
        m.LastSet input t before after value) ∧
      (∀ before after value, commands = before ++ after → m.LastSet input t before after value →
        ((m.obeyAll input commands).timer t).toNat = value.toNat - ticks after ∧
          (t = .sound →
            ((m.obeyAll input commands).isBeeping = true ↔ ticks after < value.toNat))) ∧
      (m.obeyAll input commands).Undisturbed input t := by
  refine ⟨m.exists_lastSet input t commands, ?_, undisturbed _ input t⟩
  rintro before after value rfl last
  have shown := timer_of_lastSet built last
  refine ⟨shown, ?_⟩
  rintro rfl
  rw [isBeeping_iff, shown, Nat.sub_pos_iff_lt]

/-- The program sets the delay timer to five and the sound timer to three. What comes then is an
unknown word, a program that is too large, and a question for a key that nobody answers. -/
theorem timers_run_down_since_set_refused_reset :
    let rom : Rom :=
      ⟨#[0x60, 0x05, 0xF0, 0x15, 0x61, 0x03, 0xF1, 0x18, 0x80, 0x08, 0xF2, 0x0A]⟩
    let m := (boot rom {} (.replicate 8 0)).after
    let last : List Command :=
      [.step, .tick, .reset ⟨.replicate 3585 0⟩ (.replicate 8 0), .step, .tick]
    let n := m.obeyAll .silent ([.step, .step, .tick, .step, .step] ++ last)
    m.LastSet .silent .delay [.step, .step] ([.tick, .step, .step] ++ last) 5 ∧ n.delay = 2 ∧
      m.LastSet .silent .sound [.step, .step, .tick, .step, .step] last 3 ∧ n.sound = 1 ∧
      n.isBeeping = true := by
  intro rom m last n
  have built : m.Built {} := .boot rom (.replicate 8 0) (by decide +kernel)
  have delay : m.LastSet .silent .delay [.step, .step] ([.tick, .step, .step] ++ last) 5 :=
    { set := .inr ⟨[.step], .step, rfl, by decide +kernel⟩
      unset := unset_of_take (by decide +kernel) }
  have sound : m.LastSet .silent .sound [.step, .step, .tick, .step, .step] last 3 :=
    { set := .inr ⟨[.step, .step, .tick, .step], .step, rfl, by decide +kernel⟩
      unset := unset_of_take (by decide +kernel) }
  obtain ⟨-, delays, -⟩ := timers_run_down_since_set built .silent
    ([.step, .step, .tick, .step, .step] ++ last) .delay
  obtain ⟨-, sounds, -⟩ := timers_run_down_since_set built .silent
    ([.step, .step, .tick, .step, .step] ++ last) .sound
  obtain ⟨two, -⟩ := delays [.step, .step] _ 5 rfl delay
  obtain ⟨one, beeps⟩ := sounds [.step, .step, .tick, .step, .step] _ 3 rfl sound
  have aloud : ticks last < (3 : UInt8).toNat := by decide
  exact ⟨delay, UInt8.toNat_inj.mp two, sound, UInt8.toNat_inj.mp one, (beeps rfl).mpr aloud⟩

end Machine

end Chip8
