import Chip8.Proofs.Events

/-! Running slice by slice. A run shows a frame after each slice that comes to its end, and a fault
ends it before the frame of its slice, whatever has been drawn in it. -/

namespace Chip8

namespace Scheduler

variable {s : Scheduler} {input : Input} {patience : Nat}

def advances (s : Scheduler) (input : Input) (patience : Nat) (slices : List Nat) : Scheduler :=
  slices.foldl (fun s slice => (s.advance input slice patience).scheduler) s

def pictures (s : Scheduler) (input : Input) (patience : Nat) : List Nat → List Screen
  | [] => []
  | slice :: rest =>
    let later := (s.advance input slice patience).scheduler
    later.screen :: later.pictures input patience rest

/-- The slices that pass in a run: those up to the first one that does not come to its end. -/
def passed (s : Scheduler) (input : Input) (patience : Nat) : List Nat → List Nat
  | [] => []
  | slice :: rest =>
    let stretch := s.advance input slice patience
    match stretch.ending with
    | .done => slice :: stretch.scheduler.passed input patience rest
    | _ => [slice]

theorem advances_concat (s : Scheduler) (input : Input) (patience : Nat) (slices : List Nat)
    (slice : Nat) :
    s.advances input patience (slices ++ [slice]) =
      ((s.advances input patience slices).advance input slice patience).scheduler := by
  simp [advances]

theorem advances_keeps {P : Scheduler → Prop} (h : P s)
    (advance : ∀ s slice, P s → P (s.advance input slice patience).scheduler) (slices : List Nat) :
    P (s.advances input patience slices) := by
  induction slices generalizing s with
  | nil => exact h
  | cons slice rest ih => exact ih (advance s slice h)

theorem length_pictures (s : Scheduler) (input : Input) (patience : Nat) (slices : List Nat) :
    (s.pictures input patience slices).length = slices.length := by
  induction slices generalizing s with
  | nil => rfl
  | cons slice rest ih => simp only [pictures, List.length_cons, ih]

theorem getLast?_pictures (s : Scheduler) (input : Input) (patience : Nat) {slices : List Nat}
    (h : slices ≠ []) :
    (s.pictures input patience slices).getLast? =
      some (s.advances input patience slices).screen := by
  induction slices generalizing s with
  | nil => exact absurd rfl h
  | cons slice rest ih =>
    cases rest with
    | nil => rfl
    | cons next rest =>
      simp only [pictures, List.getLast?_cons_cons]
      exact ih _ (List.cons_ne_nil next rest)

theorem passed_cons_of_done {slice : Nat}
    (h : (s.advance input slice patience).ending = .done) (rest : List Nat) :
    s.passed input patience (slice :: rest) =
      slice :: (s.advance input slice patience).scheduler.passed input patience rest := by
  simp only [passed, h]

theorem passed_cons_of_broken {slice : Nat}
    (h : (s.advance input slice patience).ending ≠ .done) (rest : List Nat) :
    s.passed input patience (slice :: rest) = [slice] := by
  simp only [passed]

/-- What slices of time have come to in a run: all of them have passed, each with a frame, or the
run ended with one of them, and there is a frame for each one before it. -/
inductive Account (s : Scheduler) (input : Input) (patience : Nat) (slices : List Nat) (r : Run) :
    Prop where
  | whole (passed : s.passed input patience slices = slices)
      (frames : r.frames.toList = s.pictures input patience slices)
      (scheduler : r.scheduler = s.advances input patience slices)
      (ending : r.ending = .done)
  | cut (before : List Nat) (slice : Nat)
      (passed : s.passed input patience slices = before ++ [slice])
      (frames : r.frames.toList = s.pictures input patience before)
      (scheduler : r.scheduler = s.advances input patience (before ++ [slice]))
      (ended : ((s.advances input patience before).advance input slice patience).ending = r.ending)
      (broken : r.ending ≠ .done)

end Scheduler

namespace Run

/-- Frames and log entries from before only stand in front. -/
theorem go_eq_append (s : Scheduler) (frames : Array Screen) (log : Log) (input : Input)
    (patience : Nat) (slices : List Nat) :
    go { scheduler := s, frames, log } input patience slices =
      { go { scheduler := s } input patience slices with
        frames := frames ++ (go { scheduler := s } input patience slices).frames
        log := log ++ (go { scheduler := s } input patience slices).log } := by
  induction slices generalizing s frames log with
  | nil => simp [go]
  | cons slice rest ih =>
    simp only [go]
    cases (s.advance input slice patience).ending with
    | done =>
      simp only
      rw [ih, ih _ (#[].push _)]
      simp [Array.append_assoc]
    | _ => simp

theorem account_go (s : Scheduler) (input : Input) (patience : Nat) (slices : List Nat) :
    s.Account input patience slices (go { scheduler := s } input patience slices) := by
  induction slices generalizing s with
  | nil => exact .whole rfl rfl rfl rfl
  | cons slice rest ih =>
    by_cases done : (s.advance input slice patience).ending = .done
    · rw [go_cons_of_done done, go_eq_append]
      have first := Scheduler.passed_cons_of_done done rest
      cases ih (s.advance input slice patience).scheduler with
      | whole passed frames scheduler ending =>
        rw [passed] at first
        refine .whole first ?_ scheduler ending
        simp [Scheduler.pictures, frames]
      | cut before last passed frames scheduler ended broken =>
        rw [passed] at first
        refine .cut (slice :: before) last first ?_ scheduler ended broken
        simp [Scheduler.pictures, frames]
    · rw [go_cons_of_broken done]
      exact .cut [] slice (Scheduler.passed_cons_of_broken done rest) rfl rfl rfl done

theorem go_append_of_done {r : Run} {input : Input} {patience : Nat} {first : List Nat}
    (h : (r.go input patience first).ending = .done) (second : List Nat) :
    r.go input patience (first ++ second) =
      (r.go input patience first).go input patience second := by
  induction first generalizing r with
  | nil => rfl
  | cons slice rest ih =>
    by_cases done : (r.scheduler.advance input slice patience).ending = .done
    · rw [go_cons_of_done done] at h
      rw [List.cons_append, go_cons_of_done done, go_cons_of_done done]
      exact ih h
    · rw [go_cons_of_broken done] at h
      exact absurd h done

/-- Slices that come after the one that a run ended with are not reached. -/
theorem go_append_of_broken {r : Run} {input : Input} {patience : Nat} {first : List Nat}
    (unbroken : r.ending = .done) (h : (r.go input patience first).ending ≠ .done)
    (second : List Nat) :
    r.go input patience (first ++ second) = r.go input patience first := by
  induction first generalizing r with
  | nil => exact absurd unbroken h
  | cons slice rest ih =>
    by_cases done : (r.scheduler.advance input slice patience).ending = .done
    · rw [go_cons_of_done done] at h
      rw [List.cons_append, go_cons_of_done done, go_cons_of_done done]
      exact ih unbroken h
    · rw [List.cons_append, go_cons_of_broken done, go_cons_of_broken done]

theorem finish_of_halted {r : Run} {fault : Fault} (h : r.ending = .halted fault) :
    r.finish = r := by
  simp only [finish, h]

end Run

namespace Scheduler

variable {s : Scheduler}

theorem screen_stop (s : Scheduler) : s.stop.screen = s.screen := by
  rw [stop_eq]
  rfl

/-- A glyph drawn by the second slice of two milliseconds, right before a return that has nowhere
to go. -/
def glyphAndReturn : Machine :=
  (Machine.boot ⟨#[0xA0, 0x50, 0x60, 0x00, 0xD0, 0x15, 0x00, 0xEE]⟩
    { clockRate := 1000, timerRate := 500, catchUpLimit := 2000000, seed := some 1 }
    (.replicate 8 0)).after

/-- Every slice has had its frame, and the last frame is the screen as it was left, unless the run
came to a fault. Then the slice with the fault has had no frame, and all others have. -/
theorem slices_shown_unless_faulted (s : Scheduler) (input : Input) (patience : Nat)
    {slices : List Nat} (nonempty : slices ≠ []) :
    let r := s.run input slices patience
    let passed := s.resume.passed input patience slices
    (r.ending = .done → passed = slices ∧
      r.frames.toList = s.resume.pictures input patience slices) ∧
    (∀ fault, r.ending = .halted fault → ∃ before slice,
      passed = before ++ [slice] ∧
      r.frames.toList = s.resume.pictures input patience before ∧
      r.scheduler = s.resume.advances input patience passed ∧
      ((s.resume.advances input patience before).advance input slice patience).ending =
        .halted fault) ∧
    (r.frames.size = passed.length ∧ r.frames.back? = some r.scheduler.screen ↔
      r.ending = .done) := by
  intro r passed
  cases Run.account_go s.resume input patience slices with
  | whole all frames scheduler ending =>
    have finished : r = _ := Run.finish_of_done ending
    have done : r.ending = .done := by rw [finished, ending]
    have shown : r.frames.toList = s.resume.pictures input patience slices := by
      rw [finished, frames]
    have screen : r.scheduler.screen = (s.resume.advances input patience slices).screen := by
      rw [finished, ← scheduler]
      exact screen_stop _
    refine ⟨fun _ => ⟨all, shown⟩, ?_, fun _ => done, fun _ => ⟨?_, ?_⟩⟩
    · intro fault halted
      rw [done] at halted
      cases halted
    · rw [← Array.length_toList, shown, length_pictures]
      exact congrArg List.length all.symm
    · rw [← Array.getLast?_toList, shown, getLast?_pictures _ _ _ nonempty, screen]
  | cut before slice cut frames scheduler ended broken =>
    have same : r = _ := Run.finish_of_broken broken
    rw [← same] at frames scheduler ended broken
    refine ⟨fun done => absurd done broken, ?_, ?_, fun done => absurd done broken⟩
    · intro fault halted
      refine ⟨before, slice, cut, frames, ?_, ended.trans halted⟩
      rw [scheduler, ← cut]
    · rintro ⟨size, -⟩
      rw [← Array.length_toList, frames, length_pictures] at size
      have longer := congrArg List.length cut
      rw [List.length_append, List.length_singleton] at longer
      change _ = passed.length at size
      change passed.length = _ at longer
      omega

/-- The first slice goes by without a fault, and is shown. -/
theorem slices_shown_unless_faulted_one_slice :
    let s := fresh glyphAndReturn
    let r := s.run .silent [2000000]
    r.ending = .done ∧ r.frames.size = 1 ∧ r.frames.back? = some r.scheduler.screen := by
  intro s r
  have done : r.ending = .done := by decide +kernel
  obtain ⟨whole, -, shown⟩ := slices_shown_unless_faulted s .silent 0 (List.cons_ne_nil 2000000 [])
  obtain ⟨size, back⟩ := shown.mpr done
  rw [(whole done).1] at size
  exact ⟨done, size, back⟩

/-- The second of three slices draws the glyph and comes to the fault, and no frame shows it. -/
theorem faulting_slice_unshown :
    let s := fresh glyphAndReturn
    let r := s.runFrames .silent 3
    s.state = .running ∧ r.ending = .halted .stackUnderflow ∧
      s.resume.passed .silent 0 (List.replicate 3 s.timerPeriod) = [2000000, 2000000] ∧
      r.frames = #[s.screen] ∧ r.scheduler.screen ≠ s.screen := by
  decide +kernel

end Scheduler

end Chip8
