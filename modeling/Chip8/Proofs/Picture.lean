import Chip8.Outcome.Lemmas
import Chip8.Proofs.Messages
import Chip8.Proofs.Course

/-! A window shows its machine. What has been done to it tells what it says: the prompt until a
program is started, then nothing, and from a fatal fault to the next start that fault. -/

namespace Chip8

namespace Window

variable {w : Window} {message : Message} {fault : Fault}

def Faults (w : Window) (message : Message) (fault : Fault) : Prop :=
  ∃ before, before ++ [.cycle] <+: w.tasks message ∧
    ((w.scheduler.machine.follow w.keypad.input before).step w.keypad.input).fault = some fault ∧
    fault.isFatal = true

/-- The fault has occurred in the course of the messages, and nothing has been started since. -/
def Faulted (w : Window) (messages : List Message) (fault : Fault) : Prop :=
  ∃ before message after, messages = before ++ message :: after ∧
    (∀ message ∈ after, message.starts = false) ∧ (w.follow before).Faults message fault

theorem not_faults_of_tasks (idle : w.tasks message = []) : ¬w.Faults message fault := by
  rintro ⟨before, listed, -, -⟩
  rw [idle] at listed
  exact List.append_ne_nil_of_right_ne_nil before (List.cons_ne_nil _ _)
    (List.prefix_nil.mp listed)

theorem not_faults_of_starts (starts : message.starts = true) : ¬w.Faults message fault := by
  obtain ⟨file, rom, entropy, rfl, -, -⟩ := exists_of_starts starts
  exact not_faults_of_tasks rfl

theorem not_faulted_nil (w : Window) : ¬w.Faulted [] fault := by
  rintro ⟨before, message, after, split, -, -⟩
  cases before <;> cases split

theorem faulted_concat (w : Window) (messages : List Message) (message : Message) :
    w.Faulted (messages ++ [message]) fault ↔
      (w.follow messages).Faults message fault ∨
        message.starts = false ∧ w.Faulted messages fault := by
  constructor
  · rintro ⟨before, last, after, split, quiet, faults⟩
    rcases List.eq_nil_or_concat after with rfl | ⟨front, final, rfl⟩
    · obtain ⟨rfl, same⟩ := List.append_inj' split rfl
      obtain rfl := List.singleton_inj.mp same
      exact Or.inl faults
    · rw [List.concat_eq_append] at split quiet
      rw [← List.cons_append, ← List.append_assoc] at split
      obtain ⟨rfl, same⟩ := List.append_inj' split rfl
      obtain rfl := List.singleton_inj.mp same
      rw [List.forall_mem_append] at quiet
      have settled := quiet.2 _ (List.mem_singleton_self _)
      exact Or.inr ⟨settled, before, last, front, rfl, quiet.1, faults⟩
  · rintro (faults | ⟨quiet, before, last, after, rfl, earlier, faults⟩)
    · exact ⟨messages, message, [], rfl, by simp, faults⟩
    · refine ⟨before, last, after ++ [message], by simp, ?_, faults⟩
      rw [List.forall_mem_append]
      exact ⟨earlier, by simpa using quiet⟩

/-- A running machine is halted by a message exactly if a fatal fault comes with it. -/
theorem Reachable.halted_update_iff (h : w.Reachable) (running : w.scheduler.state = .running) :
    (w.update message).window.scheduler.state = .halted fault ↔ w.Faults message fault := by
  cases starts : message.starts with
  | true => simp [state_update_of_starts starts w, not_faults_of_starts starts]
  | false =>
    rcases quiet_cases starts w with ⟨now, rfl⟩ | ⟨-, idle, keypad, same⟩
    · have course := w.scheduler.course_advance running w.keypad.input
        (h.fits running (w.elapsed now)) 0
      exact course.halted_iff
    · simp [same, running, not_faults_of_tasks idle]

theorem Reachable.ne_stopped_update (h : w.Reachable) (awake : w.scheduler.state ≠ .stopped)
    (message : Message) : (w.update message).window.scheduler.state ≠ .stopped := by
  cases starts : message.starts with
  | true => simp [state_update_of_starts starts w]
  | false =>
    rcases quiet_cases starts w with ⟨now, rfl⟩ | ⟨-, -, keypad, same⟩
    · exact Scheduler.ne_stopped_advance h.paced awake _ _ _
    · rwa [same]

theorem initial_idle (entropy : ChaCha.Key) : (initial entropy).scheduler.state ≠ .running := by
  have stopped : (initial entropy).scheduler.state = .stopped := rfl
  simp [stopped]

theorem stopped_iff (entropy : ChaCha.Key) (messages : List Message) :
    ((initial entropy).follow messages).scheduler.state = .stopped ↔
      ∀ message ∈ messages, message.starts = false := by
  constructor
  · intro stopped
    induction messages using List.reverseRecOn with
    | nil => simp
    | append_singleton messages last ih =>
      rw [follow_concat] at stopped
      have before : ((initial entropy).follow messages).scheduler.state = .stopped := by
        by_contra awake
        exact ((Reachable.initial entropy).follow messages).ne_stopped_update awake last stopped
      rw [List.forall_mem_append]
      refine ⟨ih before, ?_⟩
      have quiet : last.starts = false := by
        by_contra starts
        rw [state_update_of_starts (Bool.not_eq_false _ ▸ starts)] at stopped
        cases stopped
      simpa using quiet
  · intro quiet
    rw [(follow_of_idle (initial_idle entropy) quiet).1]
    rfl

theorem halted_iff (entropy : ChaCha.Key) (messages : List Message) (fault : Fault) :
    ((initial entropy).follow messages).scheduler.state = .halted fault ↔
      (initial entropy).Faulted messages fault := by
  induction messages using List.reverseRecOn generalizing fault with
  | nil => simp [not_faulted_nil, follow, initial, Scheduler.stop]
  | append_singleton messages last ih =>
    have reached := (Reachable.initial entropy).follow messages
    rw [faulted_concat, follow_concat, ← ih fault]
    cases starts : last.starts with
    | true => simp [state_update_of_starts starts, not_faults_of_starts starts]
    | false =>
      by_cases running : ((initial entropy).follow messages).scheduler.state = .running
      · rw [reached.halted_update_iff running, running]
        simp
      · obtain ⟨kept, nothing⟩ := update_of_idle running starts
        rw [kept]
        simp [not_faults_of_tasks nothing]

theorem running_iff (entropy : ChaCha.Key) (messages : List Message) :
    ((initial entropy).follow messages).scheduler.state = .running ↔
      (∃ message ∈ messages, message.starts = true) ∧
        ∀ fault, ¬(initial entropy).Faulted messages fault := by
  constructor
  · intro running
    constructor
    · by_contra none
      have quiet : ∀ message ∈ messages, message.starts = false := by
        intro message listed
        exact Bool.eq_false_iff.mpr fun starts => none ⟨message, listed, starts⟩
      rw [(stopped_iff entropy messages).mpr quiet] at running
      cases running
    · intro fault faulted
      rw [(halted_iff entropy messages fault).mpr faulted] at running
      cases running
  · rintro ⟨⟨message, listed, starts⟩, unfaulted⟩
    cases state : ((initial entropy).follow messages).scheduler.state with
    | running => rfl
    | stopped =>
      have quiet := (stopped_iff entropy messages).mp state message listed
      rw [quiet] at starts
      cases starts
    | halted fault => exact absurd ((halted_iff entropy messages fault).mp state) (unfaulted fault)

theorem Reachable.picture_eq (h : w.Reachable) : w.picture = w.scheduler.screen := by
  induction h with
  | initial entropy => rfl
  | @update w message _ ih =>
    cases starts : message.starts with
    | true =>
      obtain ⟨file, rom, entropy, rfl, read, fits⟩ := exists_of_starts starts
      obtain ⟨memory, -, restarted⟩ := Scheduler.reset_of_le fits w.scheduler entropy
      have same := load_of_le read fits w entropy
      rw [restarted] at same
      exact (congrArg picture same).trans (congrArg (·.scheduler.screen) same).symm
    | false =>
      rcases quiet_cases starts w with ⟨now, rfl⟩ | ⟨-, -, keypad, same⟩
      · rfl
      · rw [same]
        exact ih

theorem halted_ne {text : String} (start : text.toList.head? ≠ some 'H') (details : String) :
    "Halted: " ++ details ≠ text := by
  rintro rfl
  simp at start

theorem status_eq_prompt_iff :
    w.status = "Pick a rom from the File menu" ↔ w.scheduler.state = .stopped := by
  cases state : w.scheduler.state with
  | running => simp [status, state]
  | stopped => simp [status, state]
  | halted fault =>
    rw [status, state]
    exact iff_of_false (halted_ne (by simp) _) (by simp)

theorem status_eq_empty_iff : w.status = "" ↔ w.scheduler.state = .running := by
  cases state : w.scheduler.state <;> simp [status, state]

theorem status_eq_halted_iff :
    w.status = "Halted: " ++ fault.message ↔ w.scheduler.state = .halted fault := by
  cases state : w.scheduler.state with
  | running =>
    rw [status, state]
    exact iff_of_false (halted_ne (by simp) _).symm (by simp)
  | stopped =>
    rw [status, state]
    exact iff_of_false (halted_ne (by simp) _).symm (by simp)
  | halted other =>
    rw [status, state, String.append_right_inj, Fault.message_inj, RunState.halted.injEq]

theorem shows_machine (entropy : ChaCha.Key) (messages : List Message) :
    let start := initial entropy
    let w := start.follow messages
    w.picture = w.scheduler.screen ∧
      (w.status = "Pick a rom from the File menu" ↔
        ∀ message ∈ messages, message.starts = false) ∧
      ((∀ message ∈ messages, message.starts = false) →
        start.performed messages = [] ∧ w.scheduler.machine = .blank {} entropy) ∧
      (∀ fault, w.status = "Halted: " ++ fault.message ↔ start.Faulted messages fault) ∧
      (w.status = "" ↔ (∃ message ∈ messages, message.starts = true) ∧
        ∀ fault, ¬start.Faulted messages fault) ∧
      ∀ fault, w.scheduler.state = .halted fault → ∀ later,
        (∀ message ∈ later, message.starts = false) → (w.follow later).picture = w.picture := by
  intro start w
  have reached : w.Reachable := (Reachable.initial entropy).follow messages
  refine ⟨reached.picture_eq, ?_, ?_, ?_, ?_, ?_⟩
  · rw [status_eq_prompt_iff]
    exact stopped_iff entropy messages
  · intro quiet
    obtain ⟨kept, nothing⟩ := follow_of_idle (initial_idle entropy) quiet
    exact ⟨nothing, congrArg Scheduler.machine kept⟩
  · intro fault
    rw [status_eq_halted_iff]
    exact halted_iff entropy messages fault
  · rw [status_eq_empty_iff]
    exact running_iff entropy messages
  · intro fault halted later quiet
    have idle : w.scheduler.state ≠ .running := by simp [halted]
    rw [(reached.follow later).picture_eq, reached.picture_eq, (follow_of_idle idle quiet).1]

/-- The program draws and then returns from nowhere, within one tick. What it has drawn is shown,
and it stays when the clock goes on. -/
theorem shows_machine_drawn_before_fault :
    let entropy : ChaCha.Key := .replicate 8 0
    let start := initial entropy
    let messages : List Message :=
      [.tick 5,
        .filePicked (some ⟨"dash.ch8", .ok ⟨#[0xA0, 0x50, 0xD0, 0x01, 0x00, 0xEE]⟩⟩) entropy,
        .tick 20000000]
    let later : List Message := [.keyPressed (.character "q"), .tick 5000000000]
    let w := start.follow messages
    start.Faulted messages .stackUnderflow ∧ w.picture ≠ .blank ∧
      w.picture = w.scheduler.screen ∧ (w.follow later).picture = w.picture := by
  intro entropy start messages later w
  have state : ((initial entropy).follow messages).scheduler.state = .halted .stackUnderflow := by
    decide +kernel
  have status := status_eq_halted_iff.mpr state
  have quiet : ∀ message ∈ later, message.starts = false := by decide +kernel
  have drawn : w.picture ≠ .blank := by decide +kernel
  obtain ⟨shown, -, -, halted, -, kept⟩ := shows_machine entropy messages
  exact ⟨(halted .stackUnderflow).mp status, drawn, shown, kept .stackUnderflow state later quiet⟩

end Window

end Chip8
