import Chip8.Proofs.Restart
import Chip8.Proofs.Course
import Chip8.Proofs.Frame

/-! What a program can see of the keys. Three instructions ask which of them are held, each of them
once, and all that they make of an answer is whether a certain key is in it or which key comes
first. -/

namespace Chip8

namespace Instruction

def asks : Instruction → Bool
  | .skipHeld _ | .skipReleased _ | .awaitKey _ => true
  | _ => false

def Indifferent (value : UInt8 → UInt8) (keys others : List UInt8) : Instruction → Prop
  | .skipHeld x | .skipReleased x => value x ∈ keys ↔ value x ∈ others
  | .awaitKey _ => keys.head? = others.head?
  | _ => True

instance (value : UInt8 → UInt8) (keys others : List UInt8) (i : Instruction) :
    Decidable (i.Indifferent value keys others) := by
  cases i <;> simp only [Indifferent] <;> infer_instance

theorem indifferent_self (value : UInt8 → UInt8) (keys : List UInt8) (i : Instruction) :
    i.Indifferent value keys keys := by
  cases i <;> simp [Indifferent]

theorem indifferent_of_not_asks {i : Instruction} (h : i.asks = false) (value : UInt8 → UInt8)
    (keys others : List UInt8) : i.Indifferent value keys others := by
  cases i with
  | skipHeld | skipReleased | awaitKey => cases h
  | _ => trivial

end Instruction

namespace Machine

variable {m : Machine} {input first second : Input} {i : Instruction}

def Indifferent (m : Machine) (first second : Input) : Prop :=
  ∀ i, m.Executes i → i.Indifferent m.register (m.held first) (m.held second)

theorem execute_of_indifferent (h : i.Indifferent m.register (m.held first) (m.held second)) :
    m.execute first i = m.execute second i := by
  cases i with
  | skipHeld x | skipReleased x =>
    have same : (m.held first).contains (m.register x) =
        (m.held second).contains (m.register x) := by
      rw [Bool.eq_iff_iff, List.contains_iff_mem, List.contains_iff_mem]
      exact h
    simp only [execute, same]
  | awaitKey x =>
    simp only [execute]
    simp only [Instruction.Indifferent] at h
    cases hf : m.held first with
    | nil =>
      rw [hf] at h
      rw [List.head?_eq_none_iff.mp h.symm]
    | cons key others =>
      rw [hf] at h
      obtain ⟨rest, hs⟩ := List.head?_eq_some_iff.mp h.symm
      rw [hs]
  | _ => rfl

theorem step_of_indifferent (h : m.Indifferent first second) : m.step first = m.step second := by
  cases hf : m.fetch with
  | error fault => rw [step_of_fetch_error hf, step_of_fetch_error hf]
  | ok word =>
    cases hw : Instruction.ofWord word with
    | error fault => rw [step_of_unknown hf hw, step_of_unknown hf hw]
    | ok i =>
      have same : m.pastWord.execute first i = m.pastWord.execute second i :=
        execute_of_indifferent (h i ⟨word, hf, hw⟩)
      rw [step_of_known hf hw, step_of_known hf hw, same]

/-- Inputs lead to the same run when no cycle of it can tell them apart. -/
theorem outcomes_of_indifferent {tasks : List Task}
    (h : ∀ before, before ++ [.cycle] <+: tasks →
      (m.follow first before).Indifferent first second) :
    m.outcomes first tasks = m.outcomes second tasks := by
  induction tasks generalizing m with
  | nil => rfl
  | cons task rest ih =>
    have now : m.perform first task = m.perform second task := by
      cases task with
      | tick => rfl
      | cycle => exact step_of_indifferent (h [] ⟨rest, rfl⟩)
    have later : (m.perform first task).after.outcomes first rest =
        (m.perform first task).after.outcomes second rest := by
      apply ih
      intro before hb
      exact h (task :: before) (List.cons_prefix_cons.mpr ⟨rfl, hb⟩)
    simp only [outcomes, later]
    rw [now]

theorem polled_notMem_footprint (h : i.asks = false) : Part.polled ∉ i.footprint := by
  cases i with
  | skipHeld | skipReleased | awaitKey => cases h
  | _ => simp [Instruction.footprint]

theorem polled_execute (m : Machine) (input : Input) (i : Instruction) :
    (m.execute input i).after.polled = m.polled + if i.asks then 1 else 0 := by
  cases i with
  | skipHeld x | skipReleased x => exact m.afterPoll.same_skipIf _ .polled
  | awaitKey x =>
    simp only [execute]
    split <;> rfl
  | _ => exact m.same_execute input _ (polled_notMem_footprint rfl)

theorem polled_step (m : Machine) (input : Input) :
    (m.step input).after.polled = m.polled + m.next?.toList.countP Instruction.asks := by
  cases hn : m.next? with
  | some i =>
    rw [(step_of_executes (next?_eq_some_iff.mp hn) input).1]
    refine (m.pastWord.polled_execute input i).trans ?_
    simp only [Option.toList_some, List.countP_singleton]
    rfl
  | none =>
    apply m.same_step input .polled
    intro i hi
    rw [next?_eq_some_iff.mpr hi] at hn
    cases hn

/-- Every question is asked by an instruction of its own. -/
theorem polled_follow (m : Machine) (input : Input) (tasks : List Task) :
    (m.follow input tasks).polled =
      m.polled + (m.executed input tasks).countP Instruction.asks := by
  induction tasks generalizing m with
  | nil => rfl
  | cons task rest ih =>
    cases task with
    | tick => exact ih m.tick
    | cycle =>
      refine (ih (m.step input).after).trans ?_
      rw [polled_step, executed, List.countP_append, Nat.add_assoc]

theorem polled_follow_le {before tasks : List Task} (h : before <+: tasks) :
    (m.follow input before).polled ≤ (m.follow input tasks).polled := by
  obtain ⟨rest, rfl⟩ := h
  rw [follow_append, polled_follow (m.follow input before)]
  exact Nat.le_add_right _ _

/-- Answers that differ only from some question on make no difference before that question. -/
theorem indifferent_of_agree {tasks before : List Task} {k : Nat}
    (agree : ∀ j, j < k → first j = second j) (early : (m.follow first tasks).polled ≤ k)
    (h : before ++ [.cycle] <+: tasks) : (m.follow first before).Indifferent first second := by
  intro i hi
  cases asks : i.asks with
  | false => exact Instruction.indifferent_of_not_asks asks _ _ _
  | true =>
    have asked : (m.follow first (before ++ [.cycle])).polled =
        (m.follow first before).polled + 1 := by
      rw [follow_concat]
      refine (polled_step (m.follow first before) first).trans ?_
      simp [next?_eq_some_iff.mpr hi, asks]
    have soon : (m.follow first (before ++ [.cycle])).polled ≤ (m.follow first tasks).polled :=
      polled_follow_le h
    have same : (m.follow first before).held first = (m.follow first before).held second :=
      agree _ (by omega)
    rw [same]
    exact Instruction.indifferent_self _ _ i

theorem pc_step_of_skipHeld {x : UInt8} (h : m.Executes (.skipHeld x)) :
    (m.step input).after.pc.toNat =
      m.pc.toNat + if m.register x ∈ m.held input then 4 else 2 := by
  rw [pc_step h input]
  simp only [successor, skips, List.contains_iff_mem]
  split <;> rfl

theorem pc_step_of_skipReleased {x : UInt8} (h : m.Executes (.skipReleased x)) :
    (m.step input).after.pc.toNat =
      m.pc.toNat + if m.register x ∈ m.held input then 2 else 4 := by
  rw [pc_step h input]
  simp only [successor, skips, Bool.not_eq_true', ← Bool.not_eq_true, List.contains_iff_mem]
  split <;> simp_all

theorem boot_of_seed {settings : Settings} {seed : UInt64} (h : settings.seed = some seed)
    (rom : Rom) (entropy other : ChaCha.Key) :
    boot rom settings entropy = boot rom settings other := by
  simp only [boot, blank_of_seed h entropy other]

theorem keys_seen_when_asked {settings : Settings} {seed : UInt64}
    (seeded : settings.seed = some seed) (rom : Rom) (entropy other : ChaCha.Key) :
    let m := (boot rom settings entropy).after
    let n := (boot rom settings other).after
    (∀ input tasks,
      (m.follow input tasks).polled = (m.executed input tasks).countP Instruction.asks) ∧
    (∀ first second tasks,
      (∀ before, before ++ [.cycle] <+: tasks →
        (m.follow first before).Indifferent first second) →
      m.outcomes first tasks = n.outcomes second tasks) ∧
    (∀ first second tasks k, (∀ j, j < k → first j = second j) →
      (m.follow first tasks).polled ≤ k → m.outcomes first tasks = n.outcomes second tasks) ∧
    ∀ (r : Machine) (input : Input) (x : UInt8),
      (r.Executes (.skipHeld x) → (r.step input).after.pc.toNat =
        r.pc.toNat + if r.register x ∈ r.held input then 4 else 2) ∧
      (r.Executes (.skipReleased x) → (r.step input).after.pc.toNat =
        r.pc.toNat + if r.register x ∈ r.held input then 2 else 4) := by
  intro m n
  have same : n = m := congrArg Outcome.after (boot_of_seed seeded rom other entropy)
  have unasked : m.polled = 0 := by
    simp only [m, boot]
    split <;> rfl
  rw [same]
  refine ⟨?_, ?_, ?_, ?_⟩
  · intro input tasks
    rw [polled_follow, unasked, Nat.zero_add]
  · intro first second tasks h
    exact outcomes_of_indifferent h
  · intro first second tasks k agree early
    apply outcomes_of_indifferent
    intro before hb
    exact indifferent_of_agree agree early hb
  · intro r input x
    exact ⟨pc_step_of_skipHeld, pc_step_of_skipReleased⟩

/-- The program tests a key, waits for one and tests that one. The two inputs give other answers to
every question but the second, yet none that it could tell apart. -/
theorem keys_seen_when_asked_shuffled :
    let rom : Rom :=
      ⟨#[0x60, 0x05, 0xE0, 0x9E, 0x80, 0x08, 0xF1, 0x0A, 0xE1, 0xA1, 0x80, 0x08, 0x12, 0x00]⟩
    let m := (boot rom { seed := some 1 } (.replicate 8 0)).after
    let n := (boot rom { seed := some 1 } (.replicate 8 1)).after
    let first : Input := .scripted [[5, 5, 200], [], [32, 7], []]
    let second : Input := .scripted [[9, 5], [], [32, 255, 32], [1, 2]]
    let third : Input := .scripted [[5, 5, 200], [6]]
    let tasks : List Task := [.cycle, .cycle, .tick, .cycle, .cycle, .cycle]
    (∀ before, before ++ [.cycle] <+: tasks →
        (m.follow first before).Indifferent first second) ∧
      (m.follow first tasks).polled = 4 ∧ (m.follow first tasks).pc = 0x20C ∧
      m.outcomes first tasks = n.outcomes second tasks ∧
      m.outcomes first [.cycle, .cycle, .tick] = n.outcomes third [.cycle, .cycle, .tick] ∧
      m.outcomes first tasks ≠ n.outcomes third tasks := by
  intro rom m n first second third tasks
  have checked : ∀ k < 6, ∀ i ∈ (m.follow first (tasks.take k)).next?,
      i.Indifferent (m.follow first (tasks.take k)).register
        ((m.follow first (tasks.take k)).held first)
        ((m.follow first (tasks.take k)).held second) := by
    decide +kernel
  have indifferent : ∀ before, before ++ [.cycle] <+: tasks →
      (m.follow first before).Indifferent first second := by
    intro before hb i hi
    have hl : before.length < 6 := by
      have longer := hb.length_le
      rwa [List.length_append] at longer
    have taken : before = tasks.take before.length :=
      List.prefix_iff_eq_take.mp ((List.prefix_append before [.cycle]).trans hb)
    rw [taken] at hi ⊢
    exact checked before.length hl i (next?_eq_some_iff.mpr hi)
  have seeded : ({ seed := some 1 } : Settings).seed = some 1 := rfl
  obtain ⟨counted, told, early, -⟩ :=
    keys_seen_when_asked seeded rom (.replicate 8 0) (.replicate 8 1)
  refine ⟨indifferent, ?_, by decide +kernel, told first second tasks indifferent, ?_, ?_⟩
  · exact (counted first tasks).trans (by decide +kernel)
  · apply early first third [.cycle, .cycle, .tick] 1
    · intro j hj
      obtain rfl : j = 0 := Nat.lt_one_iff.mp hj
      rfl
    · decide +kernel
  · intro same
    have last := congrArg (fun outcomes => outcomes.map fun o => o.after.pc) same
    revert last
    decide +kernel

end Machine

end Chip8
