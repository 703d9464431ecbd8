import Chip8.Memory
import Chip8.Proofs.Disguise

/-! Starting over. The one thing that a reset keeps is the input, which goes on with its answers
where it was, and that makes no difference: a machine only sees the answers that come next. -/

namespace Chip8

def Input.drop (input : Input) (k : Nat) : Input := fun j => input (k + j)

namespace Machine

variable {m : Machine}

def askedBefore (k : Nat) (m : Machine) : Machine := { m with polled := k + m.polled }

theorem execute_askedBefore (m : Machine) (k : Nat) (input : Input) (i : Instruction) :
    (m.askedBefore k).execute input i =
      (m.execute (input.drop k) i).map (askedBefore k) := by
  apply execute_disguised (d := { polled := (k + ·) })
  · exact fun _ => rfl
  · exact fun _ => rfl
  · exact fun _ => ⟨rfl, rfl⟩
  · exact fun _ _ _ => rfl

theorem step_askedBefore (m : Machine) (k : Nat) (input : Input) :
    (m.askedBefore k).step input = (m.step (input.drop k)).map (askedBefore k) := by
  rcases m.step_disguised { polled := (k + ·) } input (input.drop k) with
    ⟨-, same⟩ | ⟨i, -, lift⟩
  · exact same
  · apply lift
    exact m.pastWord.execute_askedBefore k input i

theorem perform_askedBefore (m : Machine) (k : Nat) (input : Input) (task : Task) :
    (m.askedBefore k).perform input task =
      (m.perform (input.drop k) task).map (askedBefore k) := by
  cases task with
  | tick => rfl
  | cycle => exact m.step_askedBefore k input

theorem reset_askedBefore (m : Machine) (k : Nat) (rom : Rom) (entropy : ChaCha.Key) :
    (m.askedBefore k).reset rom entropy = (m.reset rom entropy).map (askedBefore k) := by
  simp only [reset]
  cases Memory.ofRom rom <;> rfl

theorem obey_askedBefore (m : Machine) (k : Nat) (input : Input) (command : Command) :
    (m.askedBefore k).obey input command =
      (m.obey (input.drop k) command).map (askedBefore k) := by
  cases command with
  | step => exact m.step_askedBefore k input
  | tick => rfl
  | reset rom entropy => exact m.reset_askedBefore k rom entropy

end Machine

namespace Scheduler

def askedBefore (k : Nat) (s : Scheduler) : Scheduler :=
  { s with machine := s.machine.askedBefore k }

end Scheduler

def Stretch.askedBefore (k : Nat) (stretch : Stretch) : Stretch :=
  { stretch with scheduler := stretch.scheduler.askedBefore k }

def Run.askedBefore (k : Nat) (r : Run) : Run :=
  { r with scheduler := r.scheduler.askedBefore k }

def Scheduler.Answer.askedBefore (k : Nat) (answer : Answer) : Answer :=
  { answer with scheduler := answer.scheduler.askedBefore k }

namespace Scheduler

theorem advance_askedBefore (s : Scheduler) (k : Nat) (input : Input)
    (elapsed patience : Nat) :
    (s.askedBefore k).advance input elapsed patience =
      (s.advance (input.drop k) elapsed patience).askedBefore k := by
  let worn : Unit → Disguise := fun _ => { polled := (k + ·) }
  have unaware (tasks : List Task) : s.machine.Unaware worn input (input.drop k) tasks := by
    apply Machine.unaware_of_forall
    exact fun m task _ => ⟨(), m.perform_askedBefore k input task⟩
  obtain ⟨_, same⟩ := s.advance_disguised (unaware
    (s.advance (input.drop k) elapsed patience).performed.toList) ()
  exact same

theorem stop_askedBefore (s : Scheduler) (k : Nat) :
    (s.askedBefore k).stop = s.stop.askedBefore k := by
  obtain ⟨machine, instructionDebt, timerDebt, state⟩ := s
  cases state <;> rfl

theorem resume_askedBefore (s : Scheduler) (k : Nat) :
    (s.askedBefore k).resume = s.resume.askedBefore k := by
  obtain ⟨machine, instructionDebt, timerDebt, state⟩ := s
  cases state <;> rfl

theorem reset_askedBefore (s : Scheduler) (k : Nat) (rom : Rom) (entropy : ChaCha.Key) :
    (s.askedBefore k).reset rom entropy = (s.reset rom entropy).map (askedBefore k) := by
  have h := s.machine.reset_askedBefore k rom entropy
  simp only [reset]
  simp only [askedBefore, h, Outcome.map]
  cases (s.machine.reset rom entropy).fault <;> rfl

end Scheduler

theorem Run.go_askedBefore (r : Run) (k : Nat) (input : Input) (patience : Nat)
    (slices : List Nat) :
    (r.askedBefore k).go input patience slices =
      (r.go (input.drop k) patience slices).askedBefore k := by
  induction slices generalizing r with
  | nil => rfl
  | cons slice rest ih =>
    let stretch := r.scheduler.advance (input.drop k) slice patience
    have h : (r.askedBefore k).scheduler.advance input slice patience =
        stretch.askedBefore k := r.scheduler.advance_askedBefore k input slice patience
    have same : (stretch.askedBefore k).ending = stretch.ending := rfl
    have hr : r.scheduler.advance (input.drop k) slice patience = stretch := rfl
    simp only [go]
    simp only [h, hr, same]
    cases stretch.ending with
    | done =>
      exact ih { r with
        scheduler := stretch.scheduler
        frames := r.frames.push stretch.scheduler.screen
        log := r.log ++ stretch.log }
    | _ => rfl

theorem Run.finish_askedBefore (r : Run) (k : Nat) :
    (r.askedBefore k).finish = r.finish.askedBefore k := by
  have h := r.scheduler.stop_askedBefore k
  obtain ⟨scheduler, frames, log, ending⟩ := r
  cases ending with
  | done =>
    simp only [finish, askedBefore] at h ⊢
    rw [h]
  | _ => rfl

namespace Scheduler

theorem operate_askedBefore (s : Scheduler) (k : Nat) (input : Input) (patience : Nat)
    (operation : Operation) :
    (s.askedBefore k).operate input patience operation =
      (s.operate (input.drop k) patience operation).askedBefore k := by
  cases operation with
  | advance elapsed =>
    simp only [operate, advance_askedBefore]
    rfl
  | stop =>
    simp only [operate, stop_askedBefore]
    rfl
  | resume =>
    simp only [operate, resume_askedBefore]
    rfl
  | run slices =>
    have h := Run.go_askedBefore { scheduler := s.resume } k input patience slices
    have hr : (s.askedBefore k).run input slices patience =
        (s.run (input.drop k) slices patience).askedBefore k := by
      simp only [run]
      rw [resume_askedBefore, ← Run.finish_askedBefore]
      exact congrArg Run.finish h
    simp only [operate, hr]
    rfl
  | reset rom entropy =>
    simp only [operate, reset_askedBefore]
    rfl
  | machine command =>
    have h := s.machine.obey_askedBefore k input command
    simp only [operate, askedBefore, h]
    rfl

theorem answers_askedBefore (s : Scheduler) (k : Nat) (input : Input) (patience : Nat)
    (operations : List Operation) :
    (s.askedBefore k).answers input patience operations =
      (s.answers (input.drop k) patience operations).map (Answer.askedBefore k) := by
  induction operations generalizing s with
  | nil => rfl
  | cons operation rest ih =>
    simp only [answers, operate_askedBefore, List.map_cons]
    exact congrArg _ (ih _)

end Scheduler

def Memory.Holds (memory : Memory) (rom : Rom) : Prop :=
  ∀ a (h : a < 0x1000), memory.bytes[a] =
    if 0x50 ≤ a ∧ a < 0xA0 then Font.glyphs.getD (a - 0x50) 0
    else if 0x200 ≤ a then rom.bytes.getD (a - 0x200) 0
    else 0

theorem Memory.ofRom_of_lt {rom : Rom} (h : Rom.limit < rom.size) :
    ofRom rom = .error (.romTooLarge rom.size Rom.limit) := by
  simp only [ofRom]
  rw [dif_neg (Nat.not_le.mpr h)]

theorem Memory.ofRom_of_le {rom : Rom} (h : rom.size ≤ Rom.limit) :
    ∃ memory, ofRom rom = .ok memory ∧ memory.Holds rom := by
  simp only [ofRom]
  rw [dif_pos h]
  refine ⟨_, rfl, fun a ha => ?_⟩
  have hs : Rom.start.toNat = 0x200 := rfl
  have hf : Font.start.toNat = 0x50 := rfl
  have hn : Font.glyphs.length = 0x50 := rfl
  have hl : rom.bytes.toList.length = rom.size := Array.length_toList
  refine (initial.getElem_overlay Rom.start rom.bytes.toList
    (Nat.add_le_add_left h 0x200) a ha).trans ?_
  by_cases inside : Rom.start.toNat ≤ a ∧ a < Rom.start.toNat + rom.bytes.toList.length
  · have hr : a - 0x200 < rom.bytes.size := by
      rw [hs, hl] at inside
      exact Nat.sub_lt_left_of_lt_add inside.1 inside.2
    rw [dif_pos inside, if_neg (by omega), if_pos (by omega)]
    simp [hs, hr]
  · rw [dif_neg inside]
    refine (zero.getElem_overlay Font.start Font.glyphs (by decide) a ha).trans ?_
    by_cases glyph : 0x50 ≤ a ∧ a < 0xA0
    · rw [if_pos glyph, dif_pos (by omega)]
      have hd : a - 0x50 < Font.glyphs.length := by omega
      simp [hf, hd]
    · rw [if_neg glyph, dif_neg (by omega)]
      have hz : zero.bytes[a] = 0 := by simp [zero]
      rw [hz]
      split
      · have hr : ¬a - 0x200 < rom.bytes.size := by
          rw [hs, hl] at inside
          change ¬a - 0x200 < rom.size
          omega
        simp [hr]
      · rfl

namespace Machine

theorem blank_of_seed {settings : Settings} {seed : UInt64} (h : settings.seed = some seed)
    (entropy other : ChaCha.Key) : blank settings entropy = blank settings other := by
  simp only [blank, startRandom]
  rw [h]

theorem boot_of_lt {rom : Rom} (h : Rom.limit < rom.size) (settings : Settings)
    (entropy : ChaCha.Key) :
    boot rom settings entropy =
      .failed (blank settings entropy) (.romTooLarge rom.size Rom.limit) := by
  simp only [boot]
  rw [Memory.ofRom_of_lt h]

theorem reset_of_lt {rom : Rom} (h : Rom.limit < rom.size) (m : Machine)
    (entropy : ChaCha.Key) :
    m.reset rom entropy = .failed m (.romTooLarge rom.size Rom.limit) := by
  simp only [reset]
  rw [Memory.ofRom_of_lt h]

theorem boot_of_le {rom : Rom} (h : rom.size ≤ Rom.limit) (settings : Settings)
    (entropy : ChaCha.Key) :
    ∃ m, boot rom settings entropy = { after := m, log := #[.loaded rom.size] } ∧
      m.memory.Holds rom := by
  obtain ⟨memory, hm, holds⟩ := Memory.ofRom_of_le h
  refine ⟨{ blank settings entropy with memory }, ?_, holds⟩
  simp only [boot]
  rw [hm]

/-- A reset comes to a new machine on the input that is there already. -/
theorem reset_of_boot {rom : Rom} {m new : Machine} {seed : UInt64} {log : Log}
    (hs : m.settings.seed = some seed) {entropy other : ChaCha.Key}
    (h : boot rom m.settings other = { after := new, log := log }) :
    m.reset rom entropy = { after := new.askedBefore m.polled, log := #[.reloaded rom.size] } := by
  simp only [boot] at h
  simp only [reset]
  cases hr : Memory.ofRom rom with
  | error fault =>
    rw [hr] at h
    cases h
  | ok memory =>
    rw [hr] at h
    cases h
    simp only [blank_of_seed hs entropy other]
    rfl

end Machine

namespace Scheduler

theorem reset_all_or_nothing {settings : Settings} {s : Scheduler} (h : s.Reachable settings)
    {seed : UInt64} (hs : settings.seed = some seed) (rom : Rom) (entropy other : ChaCha.Key) :
    (3584 < rom.size →
      (Machine.boot rom settings other).fault = some (.romTooLarge rom.size 3584) ∧
        s.reset rom entropy = .failed s (.romTooLarge rom.size 3584)) ∧
    (rom.size ≤ 3584 →
      ∃ m, Machine.boot rom settings other = { after := m, log := #[.loaded rom.size] } ∧
        m.memory.Holds rom ∧
        s.reset rom entropy =
          { after := (fresh m).askedBefore s.machine.polled
            log := #[.reloaded rom.size, .restarted] } ∧
        ∀ input patience operations,
          (s.reset rom entropy).after.answers input patience operations =
            ((fresh m).answers (input.drop s.machine.polled) patience operations).map
              (Answer.askedBefore s.machine.polled)) := by
  constructor
  · intro large
    refine ⟨by rw [Machine.boot_of_lt large]; rfl, ?_⟩
    simp only [reset]
    rw [Machine.reset_of_lt large]
    rfl
  · intro small
    obtain ⟨m, hb, holds⟩ := Machine.boot_of_le small settings other
    have hm := h.settings_eq
    have hr : s.machine.reset rom entropy = _ := Machine.reset_of_boot (hm ▸ hs) (hm ▸ hb)
    have hq : s.reset rom entropy =
        { after := (fresh m).askedBefore s.machine.polled
          log := #[.reloaded rom.size, .restarted] } := by
      simp only [reset]
      rw [hr]
      rfl
    refine ⟨m, hb, holds, hq, fun input patience operations => ?_⟩
    rw [hq]
    exact answers_askedBefore (fresh m) s.machine.polled input patience operations

/-- A key is asked for, and then a return with nowhere to go halts the machine. -/
theorem reset_all_or_nothing_after_halt :
    let rom : Rom := ⟨#[0xE0, 0x9E, 0x00, 0xEE]⟩
    let large : Rom := ⟨.replicate 3585 0⟩
    let entropy : ChaCha.Key := .replicate 8 0
    let new := fresh (Machine.boot rom { seed := some 1 } entropy).after
    let s := (new.operate .silent 0 (.advance 3000000)).scheduler
    s.state = .halted .stackUnderflow ∧
      s.reset large entropy = .failed s (.romTooLarge 3585 3584) ∧
      (s.reset rom entropy).after = new.askedBefore 1 := by
  intro rom large entropy new s
  have h : s.Reachable { seed := some 1 } :=
    .operate .silent 0 (.advance 3000000) (.fresh (.boot rom entropy (by decide +kernel)))
  obtain ⟨refused, -⟩ := reset_all_or_nothing h rfl large entropy entropy
  obtain ⟨-, restarted⟩ := reset_all_or_nothing h rfl rom entropy entropy
  obtain ⟨m, hb, -, hr, -⟩ := restarted (by decide)
  have asked : s.machine.polled = 1 := by decide +kernel
  have hm : new = fresh m := congrArg (fun o => fresh o.after) hb
  have hn : large.size = 3585 := Array.size_replicate
  have kept := (refused (by rw [hn]; decide)).2
  rw [hn] at kept
  refine ⟨by decide +kernel, kept, ?_⟩
  rw [hr, asked, hm]

end Scheduler

end Chip8
