import Chip8.Proofs.Course
import Chip8.Proofs.Frame

/-! Calls and returns nest. What lies on the stack when a call is made, and the address that the
call puts on top of it, stay where they are until the return that goes to this address. -/

namespace Chip8.Machine

variable {n : Machine} {input : Input} {back : UInt16} {base : List UInt16}

/-- One task within a call: the address it returns to stays on the stack with all below it, unless
this is the return. -/
theorem perform_within (h : back :: base <:+ n.stack) (input : Input) (task : Task) :
    back :: base <:+ (n.perform input task).after.stack ∨
      (task = .cycle ∧ n.Executes .ret ∧ (n.perform input task).after.pc = back ∧
        (n.perform input task).after.stack = base) := by
  cases task with
  | tick => exact Or.inl h
  | cycle =>
    have stepped : n.perform input .cycle = n.step input := rfl
    rw [stepped]
    rcases n.stack_step input with same | ⟨target, -, pushed⟩ | ⟨hi, popped⟩
    · left
      rw [same]
      exact h
    · left
      rw [pushed]
      exact h.trans (List.suffix_cons _ _)
    · rw [popped] at h
      rcases List.suffix_cons_iff.mp h with last | within
      · right
        obtain ⟨hb, hs⟩ := List.cons.inj last
        exact ⟨rfl, hi, hb.symm, hs.symm⟩
      · exact Or.inl within

theorem follow_within (h : back :: base <:+ n.stack) {tasks : List Task}
    (above : ∀ before, before <+: tasks →
      (n.follow input before).stack.length ≠ base.length) :
    back :: base <:+ (n.follow input tasks).stack := by
  induction tasks generalizing n with
  | nil => exact h
  | cons task rest ih =>
    apply ih
    · rcases perform_within h input task with within | ⟨-, -, -, returned⟩
      · exact within
      · have depth := above [task] (List.prefix_append [task] rest)
        exact absurd (congrArg List.length returned) depth
    · intro before hb
      exact above (task :: before) (List.cons_prefix_cons.mpr ⟨rfl, hb⟩)

theorem calls_nest {m : Machine} {input : Input} {target : UInt16}
    (call : m.Executes (.call target)) (accepted : (m.step input).fault = none) :
    ∃ back : UInt16, back.toNat = m.pc.toNat + 2 ∧ ∀ tasks : List Task,
      ((∀ before, before <+: tasks →
          m.stack.length < ((m.step input).after.follow input before).stack.length) →
        back :: m.stack <:+ ((m.step input).after.follow input tasks).stack) ∧
      ∀ before task, tasks = before ++ [task] →
        (∀ earlier, earlier <+: before →
          ((m.step input).after.follow input earlier).stack.length ≠ m.stack.length) →
        ((m.step input).after.follow input tasks).stack.length = m.stack.length →
        task = .cycle ∧ ((m.step input).after.follow input before).Executes .ret ∧
          ((m.step input).after.follow input tasks).pc = back ∧
          ((m.step input).after.follow input tasks).stack = m.stack := by
  have called : m.pastWord.pc :: m.stack <:+ (m.step input).after.stack :=
    ⟨[], (stack_step_of_call call accepted).symm⟩
  refine ⟨m.pastWord.pc, toNat_pc_pastWord call.lt, ?_⟩
  intro tasks
  constructor
  · intro above
    apply follow_within called
    intro before hb
    exact Nat.ne_of_gt (above before hb)
  · rintro before task rfl above depth
    rw [follow_concat] at depth ⊢
    have within := follow_within called above
    rcases perform_within within input task with still | returned
    · have hl := still.length_le
      rw [List.length_cons] at hl
      omega
    · exact returned

/-- A call whose subroutine makes a call itself, with a tick and an unknown word in it. -/
def nested : Machine :=
  (boot ⟨#[0x22, 0x06, 0x12, 0x02, 0x00, 0x00, 0x22, 0x0A, 0x00, 0xEE, 0x80, 0x08, 0x00, 0xEE]⟩
    {} (.replicate 8 0)).after

theorem calls_nest_nested :
    let called := (nested.step .silent).after
    let tasks : List Task := [.cycle, .tick, .cycle, .cycle]
    nested.Executes (.call 0x206) ∧ (nested.step .silent).fault = none ∧
      (called.follow .silent [.cycle]).stack = [0x208, 0x202] ∧
      ∃ back : UInt16, back.toNat = 0x202 ∧ [back] <:+ (called.follow .silent tasks).stack ∧
        (called.follow .silent tasks).Executes .ret ∧
        (called.follow .silent (tasks ++ [.cycle])).pc = back ∧
        (called.follow .silent (tasks ++ [.cycle])).stack = [] := by
  intro called tasks
  have fetched : nested.fetch = .ok 0x2206 :=
    (nested.memory.word_of_lt (a := 0x200) (by decide)).trans
      (congrArg Except.ok (by decide +kernel))
  have call : nested.Executes (.call 0x206) := ⟨0x2206, fetched, rfl⟩
  have accepted : (nested.step .silent).fault = none := by decide +kernel
  have depths : ∀ k ≤ 4, 0 < (called.follow .silent (tasks.take k)).stack.length := by
    decide +kernel
  have above : ∀ before, before <+: tasks → 0 < (called.follow .silent before).stack.length := by
    intro before hb
    rw [List.prefix_iff_eq_take.mp hb]
    exact depths before.length hb.length_le
  obtain ⟨back, hb, nest⟩ := calls_nest call accepted
  obtain ⟨within, -⟩ := nest tasks
  obtain ⟨-, returned⟩ := nest (tasks ++ [.cycle])
  obtain ⟨-, hi, hp, hs⟩ := returned tasks .cycle rfl
    (fun before hb => Nat.ne_of_gt (above before hb)) (by decide +kernel)
  exact ⟨call, accepted, by decide +kernel, back, hb, within above, hi, hp, hs⟩

end Chip8.Machine
