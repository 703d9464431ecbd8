import Chip8.Proofs.Course
import Chip8.Proofs.Frame

/-! Random bytes in order. With a seed, the bytes that a program gets are those of the stream of the
seed, one for each random instruction, counted from the last start. Nothing else takes a byte, and
only a start goes back to the first one. -/

namespace Chip8

structure Draw where
  register : UInt8
  mask : UInt8
  stored : UInt8
  deriving DecidableEq, Repr

namespace Machine

variable {settings : Settings} {m : Machine} {input : Input} {draws : List Draw} {seed : UInt64}

def note (m : Machine) (input : Input) (draws : List Draw) : Command → List Draw
  | .step =>
    match m.next? with
    | some (.random x mask) => draws ++ [⟨x, mask, (m.step input).after.register x⟩]
    | _ => draws
  | .tick => draws
  | .reset rom entropy => if (m.reset rom entropy).fault = none then [] else draws

def noteAll (m : Machine) (input : Input) (draws : List Draw) : List Command → List Draw
  | [] => draws
  | command :: rest =>
    (m.obey input command).after.noteAll input (m.note input draws command) rest

def Noted (settings : Settings) : Machine → List Draw → Prop :=
  Recorded (fun m draws => m.Built settings ∧ draws = []) after
    fun m (input, command) draws => m.note input draws command

theorem Reachable.noted (h : m.Reachable settings) : ∃ draws, m.Noted settings draws :=
  h.recorded _ fun _ built => ⟨[], built, rfl⟩

theorem Noted.reachable (h : m.Noted settings draws) : m.Reachable settings := by
  apply h.forget
  · exact fun m _ start => start.1.reachable
  · exact fun m c reached => .obey c.1 c.2 reached

/-- The draws are the first bytes of the stream of the seed, each under its mask, and the next one
will be the byte behind them. -/
structure InStream (seed : UInt64) (m : Machine) (draws : List Draw) : Prop where
  random : m.random = { key := ChaCha.keyOfSeed seed, drawn := draws.length }
  stored : ∀ k (h : k < draws.length),
    draws[k].stored = ChaCha.byte (ChaCha.keyOfSeed seed) k &&& draws[k].mask

theorem register_step_of_random {x mask : UInt8} (h : m.Executes (.random x mask))
    (input : Input) : (m.step input).after.register x = m.random.next.1 &&& mask := by
  rw [(step_of_executes h input).1]
  exact register_setRegister_self ..

theorem random_step_of_other (h : ∀ x mask, ¬m.Executes (.random x mask)) (input : Input) :
    (m.step input).after.random = m.random :=
  (m.frame_law input).undrawn h

theorem random_start (seeded : settings.seed = some seed) (entropy : ChaCha.Key) :
    startRandom settings entropy = .ofSeed seed := by
  simp only [startRandom, seeded]

theorem random_boot (seeded : settings.seed = some seed) (rom : Rom) (entropy : ChaCha.Key) :
    (boot rom settings entropy).after.random = .ofSeed seed := by
  rw [← random_start seeded entropy]
  simp only [boot]
  split <;> rfl

theorem random_reset (seeded : m.settings.seed = some seed) (rom : Rom) (entropy : ChaCha.Key) :
    (m.reset rom entropy).after.random =
      if (m.reset rom entropy).fault = none then .ofSeed seed else m.random := by
  cases placed : Memory.ofRom rom with
  | ok memory => simp [reset, placed, blank, random_start seeded]
  | error fault => simp [reset, placed, Outcome.failed]

theorem inStream_nil (h : m.random = .ofSeed seed) : m.InStream seed [] := by
  constructor
  · exact h
  · intro k hk
    exact absurd hk (Nat.not_lt_zero k)

theorem InStream.draw (h : m.InStream seed draws) {x mask : UInt8}
    (executes : m.Executes (.random x mask)) (input : Input) :
    (m.step input).after.InStream seed
      (draws ++ [⟨x, mask, (m.step input).after.register x⟩]) := by
  constructor
  · rw [random_step_of_random executes, h.random, List.length_append]
    rfl
  · intro k hk
    by_cases earlier : k < draws.length
    · rw [List.getElem_append_left earlier]
      exact h.stored k earlier
    · have last : k = draws.length := by
        rw [List.length_append, List.length_singleton] at hk
        omega
      subst last
      rw [List.getElem_concat_length rfl, register_step_of_random executes, h.random]
      rfl

theorem InStream.obey (h : m.InStream seed draws) (seeded : m.settings.seed = some seed)
    (input : Input) (command : Command) :
    (m.obey input command).after.InStream seed (m.note input draws command) := by
  cases command with
  | tick => exact ⟨h.random, h.stored⟩
  | reset rom entropy =>
    have random := random_reset seeded rom entropy
    simp only [Machine.obey, note]
    split
    · rename_i restarted
      rw [if_pos restarted] at random
      exact inStream_nil random
    · rename_i refused
      rw [if_neg refused] at random
      exact ⟨random.trans h.random, h.stored⟩
  | step =>
    simp only [Machine.obey, note]
    split
    · rename_i x mask next
      exact h.draw (next?_eq_some_iff.mp next) input
    · rename_i other
      have kept := random_step_of_other (m := m)
        (fun x mask executes => other x mask (next?_eq_some_iff.mpr executes)) input
      exact ⟨kept.trans h.random, h.stored⟩

theorem InStream.obeyAll (h : m.InStream seed draws) (seeded : m.settings.seed = some seed)
    (input : Input) (commands : List Command) :
    (m.obeyAll input commands).InStream seed (m.noteAll input draws commands) := by
  induction commands generalizing m draws with
  | nil => exact h
  | cons command rest ih =>
    apply ih (h.obey seeded input command)
    rwa [settings_obey]

theorem Built.random (seeded : settings.seed = some seed) (h : m.Built settings) :
    m.random = .ofSeed seed := by
  cases h with
  | blank entropy => exact random_start seeded entropy
  | boot rom entropy _ => exact random_boot seeded rom entropy

theorem Noted.inStream (seeded : settings.seed = some seed) (h : m.Noted settings draws) :
    m.InStream seed draws := by
  induction h with
  | start h =>
    obtain ⟨built, rfl⟩ := h
    exact inStream_nil (built.random seeded)
  | next c h ih =>
    obtain ⟨input, command⟩ := c
    apply ih.obey
    rwa [(Noted.reachable h).settings_eq]

end Machine

namespace Scheduler

variable {settings : Settings} {s : Scheduler} {draws : List Draw} {seed : UInt64}

def Noted (settings : Settings) : Scheduler → List Draw → Prop :=
  Recorded (fun s draws => ∃ m, m.Noted settings draws ∧ s = fresh m) after
    fun s (input, patience, operation) draws =>
      s.machine.noteAll input draws (s.commands input patience operation)

theorem Noted.fresh {m : Machine} (h : m.Noted settings draws) :
    (fresh m).Noted settings draws := .start ⟨m, h, rfl⟩

theorem Noted.operate (input : Input) (patience : Nat) (operation : Operation)
    (h : s.Noted settings draws) :
    (s.operate input patience operation).scheduler.Noted settings
      (s.machine.noteAll input draws (s.commands input patience operation)) :=
  h.next (input, patience, operation)

theorem Reachable.noted (h : s.Reachable settings) : ∃ draws, s.Noted settings draws := by
  apply h.recorded
  intro m reached
  obtain ⟨draws, noted⟩ := reached.noted
  exact ⟨draws, m, noted, rfl⟩

theorem Noted.reachable (h : s.Noted settings draws) : s.Reachable settings := by
  apply h.forget
  · rintro s draws ⟨m, noted, rfl⟩
    exact .fresh noted.reachable
  · exact fun s c reached => .operate c.1 c.2.1 c.2.2 reached

theorem Noted.inStream (seeded : settings.seed = some seed) (h : s.Noted settings draws) :
    s.machine.InStream seed draws := by
  induction h with
  | start h =>
    obtain ⟨m, noted, rfl⟩ := h
    exact noted.inStream seeded
  | @next s draws c h ih =>
    have machine := s.machine_operate c.1 c.2.1 c.2.2
    rw [after, machine]
    apply ih.obeyAll
    rwa [(Noted.reachable h).settings_eq]

theorem random_reset (seeded : s.machine.settings.seed = some seed) (rom : Rom)
    (entropy : ChaCha.Key) :
    (s.reset rom entropy).after.machine.random =
      if (s.reset rom entropy).fault = none then .ofSeed seed else s.machine.random := by
  obtain ⟨machine, fault⟩ := s.machine_reset rom entropy
  rw [machine, fault]
  exact Machine.random_reset seeded rom entropy

theorem random_bytes_in_order (seeded : settings.seed = some seed)
    (h : s.Reachable settings) :
    (∃ draws, s.Noted settings draws) ∧
    (∀ draws, s.Noted settings draws →
      s.machine.random = { key := ChaCha.keyOfSeed seed, drawn := draws.length } ∧
      (∀ k (h : k < draws.length),
        draws[k].stored = ChaCha.byte (ChaCha.keyOfSeed seed) k &&& draws[k].mask) ∧
      ∀ input x mask, s.machine.Executes (.random x mask) →
        (s.machine.step input).after.register x =
          ChaCha.byte (ChaCha.keyOfSeed seed) draws.length &&& mask) ∧
    ∀ rom entropy,
      ((s.reset rom entropy).after.machine.random =
        if (s.reset rom entropy).fault = none then .ofSeed seed else s.machine.random) ∧
      (s.machine.reset rom entropy).after.random =
        if (s.machine.reset rom entropy).fault = none then .ofSeed seed else s.machine.random := by
  have still : s.machine.settings.seed = some seed := by rwa [h.settings_eq]
  refine ⟨h.noted, ?_, ?_⟩
  · intro draws noted
    have stream := noted.inStream seeded
    refine ⟨stream.random, stream.stored, ?_⟩
    intro input x mask executes
    rw [Machine.register_step_of_random executes, stream.random]
    rfl
  · intro rom entropy
    exact ⟨random_reset still rom entropy, Machine.random_reset still rom entropy⟩

/-- Between its three random instructions the program has an unknown word and asks for keys, and the
host stops it and picks a program that is too large. The last instruction is a step past the
scheduler. -/
theorem random_bytes_in_order_after_refused_reset :
    let settings : Settings := { clockRate := 1000, timerRate := 500, seed := some 1 }
    let entropy : ChaCha.Key := .replicate 8 0
    let rom : Rom := ⟨#[0xC0, 0xFF, 0x80, 0x08, 0xE0, 0xA1, 0xFF, 0xFF, 0xC1, 0x0F, 0xC2, 0xF0]⟩
    let large : Rom := ⟨.replicate 3585 0⟩
    let after (s : Scheduler) (operation : Operation) := (s.operate .silent 0 operation).scheduler
    let s := after (fresh (Machine.boot rom settings entropy).after) (.advance 3000000)
    let t := after (after s .stop) (.reset large entropy)
    let u := after (after t .resume) (.advance 1000000)
    let v := after u (.machine .step)
    ∃ draws, v.Noted settings draws ∧ draws.map Draw.register = [0, 1, 2] ∧
      draws.map Draw.mask = [0xFF, 0x0F, 0xF0] ∧
      (∀ k (h : k < draws.length),
        draws[k].stored = ChaCha.byte (ChaCha.keyOfSeed 1) k &&& draws[k].mask) ∧
      v.machine.random = { key := ChaCha.keyOfSeed 1, drawn := 3 } ∧
      (v.reset rom entropy).after.machine.random = .ofSeed 1 ∧
      (v.reset large entropy).after.machine.random = v.machine.random := by
  intro settings entropy rom large after s t u v
  have start : (Machine.boot rom settings entropy).after.Noted settings [] :=
    .start ⟨.boot rom entropy (by decide +kernel), rfl⟩
  obtain ⟨draws, noted, registers, masks⟩ : ∃ draws, v.Noted settings draws ∧
      draws.map Draw.register = [0, 1, 2] ∧ draws.map Draw.mask = [0xFF, 0x0F, 0xF0] := by
    have first : s.Noted settings _ := .operate .silent 0 (.advance 3000000) (.fresh start)
    have stopped : (after s .stop).Noted settings _ := .operate .silent 0 .stop first
    have still : t.Noted settings _ := .operate .silent 0 (.reset large entropy) stopped
    have resumed : (after t .resume).Noted settings _ := .operate .silent 0 .resume still
    have second : u.Noted settings _ := .operate .silent 0 (.advance 1000000) resumed
    refine ⟨_, second.operate .silent 0 (.machine .step), ?_, ?_⟩
    · decide +kernel
    · decide +kernel
  have count : draws.length = 3 := by simpa using congrArg List.length registers
  have restarted : (v.reset rom entropy).fault = none := by decide +kernel
  have refused : (v.reset large entropy).fault ≠ none := by decide +kernel
  have seeded : settings.seed = some 1 := rfl
  obtain ⟨-, counted, reset⟩ := random_bytes_in_order seeded noted.reachable
  obtain ⟨random, stored, -⟩ := counted draws noted
  have rewound := (reset rom entropy).1
  have kept := (reset large entropy).1
  rw [if_pos restarted] at rewound
  rw [if_neg refused] at kept
  rw [count] at random
  exact ⟨draws, noted, registers, masks, stored, random, rewound, kept⟩

end Scheduler

end Chip8
