import Chip8.Keypad
import Chip8.Proofs.Waiting

/-! What a keypad remembers of the events it was told. An event sets one key or releases them all,
and of the events that concern a key only the last one counts. So events for different keys may come
in any order, and a machine that waits for a key always gets the lowest one that is held. -/

namespace Chip8

inductive KeyEvent where
  | set (key : UInt8) (down : Bool)
  | releaseAll
  deriving DecidableEq, Repr

namespace KeyEvent

def concerns (key : UInt8) : KeyEvent → Bool
  | .set other _ => other == key
  | .releaseAll => true

def about (key : UInt8) (events : List KeyEvent) : List KeyEvent := events.filter (concerns key)

/-- After the last release of all keys there is an event that sets the key, and the last such event
sets it down. -/
def Down (key : UInt8) (events : List KeyEvent) : Prop :=
  (about key events).getLast? = some (.set key true)

instance (key : UInt8) (events : List KeyEvent) : Decidable (Down key events) :=
  inferInstanceAs (Decidable (_ = _))

/-- The same events in another order. Neighbours may change places if they set different keys, so
the events of one key keep their order and none is moved over a release of all keys. -/
inductive Reordered : List KeyEvent → List KeyEvent → Prop where
  | nil : Reordered [] []
  | cons (event : KeyEvent) {first second : List KeyEvent} (rest : Reordered first second) :
      Reordered (event :: first) (event :: second)
  | swap {key other : UInt8} (apart : key ≠ other) (down otherDown : Bool)
      (rest : List KeyEvent) :
      Reordered (.set key down :: .set other otherDown :: rest)
        (.set other otherDown :: .set key down :: rest)
  | trans {first second third : List KeyEvent} (before : Reordered first second)
      (after : Reordered second third) : Reordered first third

variable {key : UInt8} {event other : KeyEvent} {events first second before after : List KeyEvent}

theorem exists_concerns (event : KeyEvent) : ∃ key, event.concerns key = true := by
  cases event with
  | set key down => exact ⟨key, beq_self_eq_true key⟩
  | releaseAll => exact ⟨0, rfl⟩

theorem about_cons (key : UInt8) (event : KeyEvent) (events : List KeyEvent) :
    about key (event :: events) =
      if event.concerns key then event :: about key events else about key events :=
  List.filter_cons

theorem about_concat (key : UInt8) (event : KeyEvent) (events : List KeyEvent) :
    about key (events ++ [event]) =
      about key events ++ if event.concerns key then [event] else [] := by
  rw [about, List.filter_append, List.filter_cons]
  rfl

theorem not_down_nil : ¬Down key [] := nofun

theorem down_concat : Down key (events ++ [event]) ↔
    event = .set key true ∨ event.concerns key = false ∧ Down key events := by
  rw [Down, about_concat]
  by_cases h : event.concerns key = true
  · rw [if_pos h, List.getLast?_concat]
    simp [h]
  · have unset : event ≠ .set key true := by
      rintro rfl
      exact h (beq_self_eq_true key)
    rw [if_neg h, List.append_nil]
    simp [h, unset, Down]

theorem Reordered.refl (events : List KeyEvent) : Reordered events events := by
  induction events with
  | nil => exact .nil
  | cons event rest ih => exact .cons event ih

theorem Reordered.swap_of_apart
    (apart : ∀ key, event.concerns key = true → other.concerns key = false)
    (rest : List KeyEvent) : Reordered (event :: other :: rest) (other :: event :: rest) := by
  cases event with
  | releaseAll =>
    obtain ⟨key, concerned⟩ := exists_concerns other
    cases concerned.symm.trans (apart key rfl)
  | set key down =>
    have unconcerned := apart key (beq_self_eq_true key)
    cases other with
    | releaseAll => cases unconcerned
    | set otherKey otherDown =>
      have different : otherKey ≠ key := ne_of_beq_false unconcerned
      exact .swap different.symm down otherDown rest

/-- An event may be moved over others that concern none of its keys. -/
theorem Reordered.move (apart : ∀ earlier ∈ before, ∀ key, event.concerns key = true →
      earlier.concerns key = false) (after : List KeyEvent) :
    Reordered (event :: (before ++ after)) (before ++ event :: after) := by
  induction before with
  | nil => exact .refl _
  | cons earlier rest ih =>
    obtain ⟨here, later⟩ := List.forall_mem_cons.mp apart
    exact .trans (.swap_of_apart here (rest ++ after)) (.cons earlier (ih later))

theorem Reordered.about_eq (h : Reordered first second) (key : UInt8) :
    about key first = about key second := by
  induction h with
  | nil => rfl
  | cons event _ ih => rw [about_cons, about_cons, ih]
  | @swap left right apart down otherDown rest =>
    simp only [about_cons, concerns]
    by_cases hl : left = key
    · have hr : right ≠ key := fun same => apart (hl.trans same.symm)
      simp [hl, hr]
    · simp [hl]
  | trans _ _ ih ih' => exact ih.trans ih'

/-- Where every history of a key that the event concerns begins with it, nothing before the event
concerns any of its keys. -/
theorem exists_of_about_eq_cons
    (begins : ∀ key, event.concerns key = true → ∃ rest, about key events = event :: rest) :
    ∃ before after, events = before ++ event :: after ∧
      ∀ earlier ∈ before, ∀ key, event.concerns key = true → earlier.concerns key = false := by
  obtain ⟨key, concerned⟩ := exists_concerns event
  obtain ⟨rest, first⟩ := begins key concerned
  obtain ⟨before, after, rfl, silent, -, -⟩ := List.filter_eq_cons_iff.mp first
  refine ⟨before, after, rfl, ?_⟩
  cases event with
  | set only down =>
    intro earlier mem other concerns
    have same : only = other := eq_of_beq concerns
    have given : only = key := eq_of_beq concerned
    rw [← same, given]
    exact Bool.not_eq_true _ ▸ silent earlier mem
  | releaseAll =>
    cases before with
    | nil => exact fun _ none => absurd none List.not_mem_nil
    | cons earlier others =>
      obtain ⟨own, concerned⟩ := exists_concerns earlier
      obtain ⟨rest, begun⟩ := begins own rfl
      rw [List.cons_append, about_cons, if_pos concerned] at begun
      obtain rfl : earlier = .releaseAll := List.head_eq_of_cons_eq begun
      exact absurd rfl (silent .releaseAll List.mem_cons_self)

/-- A reordering keeps the history of every key, and it may change anything else. -/
theorem reordered_iff : Reordered first second ↔ ∀ key, about key first = about key second := by
  refine ⟨Reordered.about_eq, ?_⟩
  intro same
  induction first generalizing second with
  | nil =>
    cases second with
    | nil => exact .nil
    | cons event rest =>
      obtain ⟨key, concerned⟩ := exists_concerns event
      have missing := same key
      rw [about_cons, if_pos concerned] at missing
      cases missing
  | cons event rest ih =>
    have begins : ∀ key, event.concerns key = true → ∃ rest, about key second = event :: rest := by
      intro key concerned
      have first := same key
      rw [about_cons, if_pos concerned] at first
      exact ⟨about key rest, first.symm⟩
    obtain ⟨before, after, rfl, apart⟩ := exists_of_about_eq_cons begins
    have moved := Reordered.move apart after
    refine .trans (.cons event (ih fun key => ?_)) moved
    have whole := (same key).trans (moved.about_eq key).symm
    rw [about_cons, about_cons] at whole
    by_cases concerned : event.concerns key = true
    · rw [if_pos concerned, if_pos concerned] at whole
      exact List.tail_eq_of_cons_eq whole
    · rwa [if_neg concerned, if_neg concerned] at whole

end KeyEvent

namespace Keypad

variable {pad : Keypad}

def tell (pad : Keypad) : KeyEvent → Keypad
  | .set key down => pad.set key down
  | .releaseAll => pad.releaseAll

def told (events : List KeyEvent) : Keypad := events.foldl tell {}

theorem told_concat (events : List KeyEvent) (event : KeyEvent) :
    told (events ++ [event]) = (told events).tell event :=
  List.foldl_append

theorem isPressed_tell (pad : Keypad) (event : KeyEvent) (key : UInt8) :
    (pad.tell event).isPressed key = true ↔
      event = .set key true ∧ key.toNat < 16 ∨
        event.concerns key = false ∧ pad.isPressed key = true := by
  cases event with
  | releaseAll => simp [tell, KeyEvent.concerns]
  | set other down =>
    rw [tell, isPressed_set]
    by_cases same : other = key
    · subst same
      by_cases small : other.toNat < 16
      · simp [small, KeyEvent.concerns]
      · have never : pad.isPressed other ≠ true := fun pressed => small (lt_of_isPressed pressed)
        simp [small, never]
    · simp [same, KeyEvent.concerns]

theorem isPressed_told (events : List KeyEvent) (key : UInt8) :
    (told events).isPressed key = true ↔ key.toNat < 16 ∧ KeyEvent.Down key events := by
  induction events using List.reverseRecOn with
  | nil =>
    have none : (told []).isPressed key = false := isPressed_releaseAll {} key
    simp [none, KeyEvent.not_down_nil]
  | append_singleton events event ih =>
    rw [told_concat, isPressed_tell, ih, KeyEvent.down_concat]
    tauto

theorem told_of_reordered {first second : List KeyEvent} (h : KeyEvent.Reordered first second) :
    told first = told second := by
  apply ext_isPressed
  intro key
  rw [Bool.eq_iff_iff, isPressed_told, isPressed_told, KeyEvent.Down, KeyEvent.Down,
    KeyEvent.reordered_iff.mp h key]

/-- The cycle that waits for a key takes the lowest of those that the keypad holds, or waits on. -/
theorem step_of_awaitKey_pressed {m : Machine} {input : Input} {x : Fin 16}
    (h : m.Executes (.awaitKey (.ofNat x.val))) (answer : input m.polled = pad.pressed) :
    (m.step input).fault = none ∧
      (pad.pressed = [] ∧ (m.step input).after = m.afterPoll ∨
        ∃ key ∈ pad.pressed, (∀ other ∈ pad.pressed, key ≤ other) ∧
          (m.step input).after = m.found x key) := by
  cases held : pad.pressed with
  | nil =>
    obtain ⟨fault, after⟩ := Machine.step_of_awaitKey_empty h (answer.trans held)
    exact ⟨fault, Or.inl ⟨rfl, after⟩⟩
  | cons key others =>
    obtain ⟨fault, after⟩ := Machine.step_of_awaitKey_found h (answer.trans held)
    refine ⟨fault, Or.inr ⟨key, List.mem_cons_self, ?_, after⟩⟩
    exact held ▸ le_of_pressed_eq_cons held

theorem last_event_for_key_counts (events : List KeyEvent) :
    let pad := told events
    pad.pressed.Pairwise (· < ·) ∧
    (∀ key, key ∈ pad.pressed ↔ key.toNat < 16 ∧ KeyEvent.Down key events) ∧
    (∀ key, pad.isPressed key = true ↔ key ∈ pad.pressed) ∧
    (∀ key down, 16 ≤ key.toNat → pad.set key down = pad) ∧
    (∀ others, KeyEvent.Reordered events others → told others = pad) ∧
    ∀ (m : Machine) (input : Input) (x : Fin 16),
      m.fetch = .ok (.ofNat (0xF000 + 0x100 * x.val + 0x0A)) → input m.polled = pad.pressed →
      (m.step input).fault = none ∧
        (pad.pressed = [] ∧ (m.step input).after = m.afterPoll ∨
          ∃ key ∈ pad.pressed, (∀ other ∈ pad.pressed, key ≤ other) ∧
            (m.step input).after = m.found x key) := by
  intro pad
  refine ⟨pad.pairwise_pressed, ?_, fun _ => mem_pressed.symm, ?_, ?_, ?_⟩
  · intro key
    rw [mem_pressed]
    exact isPressed_told events key
  · intro key down outside
    exact set_of_le outside pad down
  · intro others reordered
    exact (told_of_reordered reordered).symm
  · intro m input x fetched answer
    exact step_of_awaitKey_pressed ⟨_, fetched, Instruction.ofWord_of_lowByte? rfl rfl⟩ answer

/-- The release forgets the first key. Of the keys set after it, one goes up and then down, and one
down and then up; two bytes are no keys. -/
theorem last_event_for_key_counts_three_keys :
    let events : List KeyEvent := [.set 0xC true, .set 0x10 true, .releaseAll, .set 0x7 true,
      .set 0x3 false, .set 0xB true, .set 0x3 true, .set 0xB false, .set 0xF3 true]
    let others : List KeyEvent := [.set 0x10 true, .set 0xC true, .releaseAll, .set 0xB true,
      .set 0xB false, .set 0x3 false, .set 0xF3 true, .set 0x3 true, .set 0x7 true]
    let pad := told events
    let m := (Machine.boot ⟨#[0xF5, 0x0A]⟩ {} (.replicate 8 0)).after
    pad.pressed = [0x3, 0x7] ∧ KeyEvent.Down 0x3 events ∧ ¬KeyEvent.Down 0xB events ∧
      ¬KeyEvent.Down 0xC events ∧ pad.set 0xF3 false = pad ∧
      KeyEvent.Reordered events others ∧ told others = pad ∧
      (m.step pad.input).after = m.found 5 0x3 := by
  intro events others pad m
  have reordered : KeyEvent.Reordered events others := by
    have histories : ∀ n < 256,
        KeyEvent.about (.ofNat n) events = KeyEvent.about (.ofNat n) others := by decide +kernel
    rw [KeyEvent.reordered_iff]
    intro key
    have history := histories key.toNat key.toNat_lt
    rwa [UInt8.ofNat_toNat] at history
  have fetched : m.fetch = .ok 0xF50A := by decide +kernel
  have pressed : pad.pressed = [0x3, 0x7] := by decide +kernel
  have least : ∀ key ∈ ([0x3, 0x7] : List UInt8), (∀ other ∈ [0x3, 0x7], key ≤ other) →
      key = 0x3 := by decide +kernel
  obtain ⟨-, down, -, outside, same, waits⟩ := last_event_for_key_counts events
  refine ⟨pressed, ((down 0x3).mp ?_).2, by decide, by decide, outside 0xF3 false (by decide),
    reordered, same others reordered, ?_⟩
  · exact pressed ▸ by decide
  · obtain ⟨-, ⟨none, -⟩ | ⟨key, held, lowest, after⟩⟩ := waits m pad.input 5 fetched rfl
    · cases pressed.symm.trans none
    · rw [after, least key (pressed ▸ held) (pressed ▸ lowest)]

end Keypad

end Chip8
