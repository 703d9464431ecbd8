import Chip8.Proofs.Agenda
import Chip8.Proofs.Keyboard

/-! Waiting for a key. A cycle that finds no key held goes back to its own word, so as long as none
comes only time passes: the timers run down and questions are asked. The first key that is found
ends the wait. -/

namespace Chip8

def Input.Empty (input : Input) (first last : Nat) : Prop :=
  ∀ j, first ≤ j → j < last → input j = []

theorem Input.Empty.mono {input : Input} {first last sooner : Nat} (h : input.Empty first last)
    (le : sooner ≤ last) : input.Empty first sooner :=
  fun j from_first before => h j from_first (Nat.lt_of_lt_of_le before le)

namespace Machine

variable {m : Machine} {x : Fin 16} {input : Input} {tasks : List Task}

def remaining (timer : UInt8) (ticks : Nat) : UInt8 := .ofNat (timer.toNat - ticks)

def waited (m : Machine) (tasks : List Task) : Machine :=
  { m with
    delay := remaining m.delay (tasks.count .tick)
    sound := remaining m.sound (tasks.count .tick)
    polled := m.polled + tasks.count .cycle }

def found (m : Machine) (x : Fin 16) (key : UInt8) : Machine :=
  setRegister { m with pc := m.pc + 2, polled := m.polled + 1 } (.ofNat x.val) key

theorem remaining_zero (timer : UInt8) : remaining timer 0 = timer := UInt8.ofNat_toNat

theorem remaining_countDown (timer : UInt8) (ticks : Nat) :
    remaining (countDown timer) ticks = remaining timer (ticks + 1) := by
  rw [remaining, toNat_countDown, remaining, Nat.sub_sub, Nat.add_comm]

theorem waited_nil (m : Machine) : m.waited [] = m := by
  simp only [waited, List.count_nil, remaining_zero, Nat.add_zero]

theorem waited_tick (m : Machine) (rest : List Task) :
    m.tick.waited rest = m.waited (.tick :: rest) := by
  have ticks : (Task.tick :: rest).count .tick = rest.count .tick + 1 := List.count_cons_self
  have cycles : (Task.tick :: rest).count .cycle = rest.count .cycle :=
    List.count_cons_of_ne (by decide)
  simp only [waited, ticks, cycles, ← remaining_countDown]
  rfl

theorem waited_cycle (m : Machine) (rest : List Task) :
    m.afterPoll.waited rest = m.waited (.cycle :: rest) := by
  have ticks : (Task.cycle :: rest).count .tick = rest.count .tick :=
    List.count_cons_of_ne (by decide)
  have questions : m.polled + (Task.cycle :: rest).count .cycle =
      m.polled + 1 + rest.count .cycle := by
    rw [List.count_cons_self, Nat.add_right_comm, Nat.add_assoc]
  simp only [waited, ticks, questions]
  rfl

/-- Whatever the answer is, it is the answer to one question. -/
theorem polled_step_of_awaitKey (h : m.Executes (.awaitKey (.ofNat x.val))) (input : Input) :
    (m.step input).after.polled = m.polled + 1 := by
  rw [(step_of_executes h input).1]
  exact m.pastWord.polled_execute input (.awaitKey (.ofNat x.val))

/-- The program counter is moved past the word and then back, which cancels out at any address. -/
theorem step_of_awaitKey_empty (h : m.Executes (.awaitKey (.ofNat x.val)))
    (empty : input m.polled = []) :
    (m.step input).fault = none ∧ (m.step input).after = m.afterPoll := by
  obtain ⟨after, fault⟩ := step_of_executes h input
  have held : m.pastWord.held input = [] := empty
  have back : m.pastWord.pc - 2 = m.pc := UInt16.add_sub_cancel m.pc 2
  rw [after, fault]
  simp only [execute, held, back]
  exact ⟨rfl, rfl⟩

theorem step_of_awaitKey_found (h : m.Executes (.awaitKey (.ofNat x.val))) {key : UInt8}
    {others : List UInt8} (answer : input m.polled = key :: others) :
    (m.step input).fault = none ∧ (m.step input).after = m.found x key := by
  obtain ⟨after, fault⟩ := step_of_executes h input
  have held : m.pastWord.held input = key :: others := answer
  rw [after, fault]
  simp only [execute, held]
  exact ⟨rfl, rfl⟩

theorem follow_eq_waited (h : m.Executes (.awaitKey (.ofNat x.val)))
    (empty : input.Empty m.polled (m.follow input tasks).polled) :
    m.follow input tasks = m.waited tasks := by
  -- for every machine that waits, since each task leaves one behind
  induction tasks generalizing m with
  | nil => exact m.waited_nil.symm
  | cons task rest ih =>
    cases task with
    | tick =>
      have later : m.tick.follow input rest = m.tick.waited rest := ih h empty
      exact later.trans (m.waited_tick rest)
    | cycle =>
      have asked : m.polled + 1 ≤ (m.follow input (.cycle :: rest)).polled := by
        rw [← polled_step_of_awaitKey h input]
        exact polled_follow_le (List.prefix_append [.cycle] rest)
      obtain ⟨-, after⟩ := step_of_awaitKey_empty h (empty m.polled (Nat.le_refl _) asked)
      have split : m.follow input (.cycle :: rest) = m.afterPoll.follow input rest :=
        congrArg (·.follow input rest) after
      rw [split] at empty ⊢
      rw [← waited_cycle]
      have waiting : m.afterPoll.Executes (.awaitKey (.ofNat x.val)) := h
      refine ih waiting fun j from_next before => ?_
      exact empty j (Nat.le_of_succ_le from_next) before

/-- What a wait comes to in which no key has been found so far: what is left of the machine, what
each cycle was, and what the next one will be if it finds a key. -/
structure Waits (m : Machine) (input : Input) (x : Fin 16) (tasks : List Task) : Prop where
  machine : m.follow input tasks = m.waited tasks
  cycles : ∀ before, before ++ [.cycle] <+: tasks →
    ((m.follow input before).step input).fault = none ∧
      ((m.follow input before).step input).after.polled = (m.follow input before).polled + 1
  found : ∀ key others, input (m.waited tasks).polled = key :: others →
    ((m.waited tasks).step input).fault = none ∧
      ((m.waited tasks).step input).after = (m.waited tasks).found x key ∧
      ((m.waited tasks).found x key).pc.toNat = m.pc.toNat + 2

theorem waits_of_empty (h : m.Executes (.awaitKey (.ofNat x.val)))
    (empty : input.Empty m.polled (m.follow input tasks).polled) : Waits m input x tasks := by
  refine ⟨follow_eq_waited h empty, ?_, ?_⟩
  · intro before listed
    have later : (m.follow input (before ++ [.cycle])).polled ≤ (m.follow input tasks).polled :=
      polled_follow_le listed
    have sooner : (m.follow input before).polled ≤ (m.follow input (before ++ [.cycle])).polled :=
      polled_follow_le (List.prefix_append before [.cycle])
    have waiting : (m.follow input before).Executes (.awaitKey (.ofNat x.val)) := by
      rw [follow_eq_waited h (empty.mono (Nat.le_trans sooner later))]
      exact h
    have asked := polled_step_of_awaitKey waiting input
    have unheld : input (m.follow input before).polled = [] := by
      have asked_first : m.polled ≤ (m.follow input before).polled :=
        polled_follow_le (List.nil_prefix (l := before))
      apply empty _ asked_first
      rw [follow_concat] at later
      exact Nat.lt_of_lt_of_le (Nat.lt_of_succ_le asked.ge) later
    exact ⟨(step_of_awaitKey_empty waiting unheld).1, asked⟩
  · intro key others answer
    have waiting : (m.waited tasks).Executes (.awaitKey (.ofNat x.val)) := h
    obtain ⟨fault, after⟩ := step_of_awaitKey_found waiting answer
    exact ⟨fault, after, toNat_pc_pastWord h.lt⟩

end Machine

namespace Scheduler

variable {s : Scheduler} {settings : Settings} {x : Fin 16}

/-- Tasks that are performed in several stretches of time go as on the bare machine. -/
theorem course_drive (hp : s.Paced) (settled : s.Settled) (running : s.state = .running)
    (input : Input) (patience : Nat) (slices : List Nat)
    (fits : .overflow ∉ (s.drive input patience (slices.map .advance)).endings) :
    Course s.machine input (s.drive input patience (slices.map .advance)).performed.toList
      (s.drive input patience (slices.map .advance)).toProgress := by
  have awake : s.state ≠ .stopped := by simp [running]
  have kept := resume_of_ne_stopped (ne_stopped_drive_advances hp awake input patience slices)
  obtain ⟨performed, agrees⟩ :=
    drive_agrees hp settled input patience (slices.map .advance) fits
  rw [heard_advances hp awake, resume_of_ne_stopped awake] at performed agrees
  rw [kept] at agrees
  have course : Course s.machine input
      (s.spend input (slices.map s.accepted).sum).performed.toList
      (s.spend input (slices.map s.accepted).sum) := by
    apply Course.settle
    exact .whole rfl (s.machine.survives_nil input) rfl running
  rw [performed]
  exact course.congr agrees.machine agrees.state performed

theorem running_of_waits {tasks : List Task} {p : Progress} {input : Input}
    (course : Course s.machine input tasks p)
    (waits : s.machine.Waits input x tasks) : p.scheduler.state = .running := by
  cases course with
  | whole _ _ _ state => exact state
  | cut before fault listed _ _ faulted =>
    obtain ⟨none, -⟩ := waits.cycles before listed
    cases none.symm.trans faulted

theorem waiting_only_lets_time_pass :
    (∀ (m : Machine) (input : Input) (x : Fin 16) (tasks : List Task),
      m.fetch = .ok (.ofNat (0xF000 + 0x100 * x.val + 0x0A)) →
      input.Empty m.polled (m.follow input tasks).polled → m.Waits input x tasks) ∧
    ∀ (settings : Settings) (s : Scheduler) (input : Input) (patience : Nat) (slices : List Nat)
      (x : Fin 16), s.Reachable settings → s.state = .running → s.Paced →
      s.machine.fetch = .ok (.ofNat (0xF000 + 0x100 * x.val + 0x0A)) →
      let passage := s.drive input patience (slices.map .advance)
      .overflow ∉ passage.endings →
      (input.Empty s.machine.polled passage.scheduler.machine.polled →
        passage.scheduler.state = .running ∧ (∀ ending ∈ passage.endings, ending = .done) ∧
          passage.scheduler.machine = s.machine.waited passage.performed.toList ∧
          s.machine.Waits input x passage.performed.toList) ∧
      ∀ before after, passage.performed.toList = before ++ .cycle :: after →
        input.Empty s.machine.polled (s.machine.follow input before).polled →
        ∀ key others, input (s.machine.follow input before).polled = key :: others →
          s.machine.Waits input x before ∧ passage.scheduler.machine =
            ((s.machine.waited before).found x key).follow input after := by
  have waiting {m : Machine} {x : Fin 16}
      (fetched : m.fetch = .ok (.ofNat (0xF000 + 0x100 * x.val + 0x0A))) :
      m.Executes (.awaitKey (.ofNat x.val)) :=
    ⟨_, fetched, Instruction.ofWord_of_lowByte? rfl rfl⟩
  refine ⟨fun m input x tasks fetched => Machine.waits_of_empty (waiting fetched), ?_⟩
  intro settings s input patience slices x reached running hp fetched passage fits
  have executes := waiting fetched
  have course : Course s.machine input passage.performed.toList passage.toProgress :=
    course_drive hp (reached.settled hp) running input patience slices fits
  have machine : passage.scheduler.machine = s.machine.follow input passage.performed.toList :=
    course.machine_eq
  constructor
  · intro empty
    rw [machine] at empty
    have waits := Machine.waits_of_empty executes empty
    have state := running_of_waits course waits
    refine ⟨state, ?_, machine.trans waits.machine, waits⟩
    intro ending listed
    rcases endings_drive hp input patience _ fits ending listed with done | ⟨fault, -, halted⟩
    · exact done
    · cases state.symm.trans halted
  · intro before after performed empty key others answer
    have waits := Machine.waits_of_empty executes empty
    rw [waits.machine] at answer
    obtain ⟨-, found, -⟩ := waits.found key others answer
    refine ⟨waits, ?_⟩
    calc passage.scheduler.machine
      _ = (s.machine.follow input before).follow input (.cycle :: after) := by
        rw [machine, performed, Machine.follow_append]
      _ = ((s.machine.waited before).step input).after.follow input after := by
        rw [waits.machine]
        rfl
      _ = ((s.machine.waited before).found x key).follow input after := by rw [found]

/-- A program sets the delay timer to three and waits. The key comes with the fourth question, when
two ticks have passed. -/
theorem waiting_only_lets_time_pass_three_questions :
    let settings : Settings := { clockRate := 1000, timerRate := 500, seed := some 1 }
    let rom : Rom := ⟨#[0x60, 0x03, 0xF0, 0x15, 0xF1, 0x0A]⟩
    let m := (Machine.boot rom settings (.replicate 8 0)).after.follow .silent [.cycle, .cycle]
    let s := fresh m
    let input : Input := .scripted [[], [], [], [7, 4]]
    let waiting := s.drive input 0 ([1500000, 2000000].map .advance)
    let served := s.drive input 0 ([1500000, 2000000, 500000].map .advance)
    m.Waits input 1 [.tick, .cycle, .tick] ∧
      waiting.performed = #[.cycle, .tick, .cycle, .cycle] ∧
      waiting.scheduler.state = .running ∧
      waiting.scheduler.machine = m.waited [.cycle, .tick, .cycle, .cycle] ∧
      waiting.scheduler.machine.delay = 2 ∧
      served.scheduler.machine = (m.waited [.cycle, .tick, .cycle, .cycle, .tick]).found 1 7 := by
  intro settings rom m s input waiting served
  have start : m.Reachable settings := by
    have booted : (Machine.boot rom settings (.replicate 8 0)).fault = none := by decide +kernel
    exact .obey .silent .step (.obey .silent .step (.boot rom (.replicate 8 0) booted))
  have hp : s.Paced := ⟨by decide +kernel, by decide +kernel⟩
  have fetched : m.fetch = .ok 0xF10A := by decide +kernel
  have unheld : ∀ j < 3, input j = [] := by decide
  have empty {last : Nat} (few : last ≤ 3) : input.Empty m.polled last :=
    fun j _ before => unheld j (Nat.lt_of_lt_of_le before few)
  have third : (m.follow input [.cycle, .tick, .cycle, .cycle, .tick]).polled = 3 := by
    decide +kernel
  obtain ⟨alone, driven⟩ := waiting_only_lets_time_pass
  obtain ⟨waits, -⟩ := driven settings s input 0 [1500000, 2000000] 1 (.fresh start) rfl hp
    fetched (by decide +kernel)
  obtain ⟨-, serves⟩ := driven settings s input 0 [1500000, 2000000, 500000] 1 (.fresh start)
    rfl hp fetched (by decide +kernel)
  have performed : waiting.performed = #[.cycle, .tick, .cycle, .cycle] := by decide +kernel
  obtain ⟨state, -, machine, -⟩ := waits (empty (by decide +kernel))
  rw [performed] at machine
  obtain ⟨-, key⟩ := serves [.cycle, .tick, .cycle, .cycle, .tick] [] (by decide +kernel)
    (empty third.le) 7 [4] (congrArg input third)
  refine ⟨?_, performed, state, machine, by rw [machine]; decide +kernel, key⟩
  exact alone m input 1 [.tick, .cycle, .tick] fetched (empty (by decide +kernel))

end Scheduler

end Chip8
