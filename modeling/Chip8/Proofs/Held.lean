import Chip8.Keypad
import Chip8.Proofs.Messages

/-! The keys that are held right now. A window hears of keys by their presses and releases, and its
keypad has one bit for each code. Where two keys have the same code, a release of one of them clears
the bit while the other is still held. -/

namespace Chip8

namespace HostKey

/-- The key with its text in lower case. Keys that differ only in case are one key of the keyboard,
with and without shift. -/
def folded : HostKey → HostKey
  | character text => character (text.map Char.toLower)
  | key => key

def doubled : List UInt8 := namedLayout.map Prod.snd

theorem mem_of_lookup {α : Type} [BEq α] [LawfulBEq α] {table : List (α × UInt8)} {a : α}
    {code : UInt8} (h : table.lookup a = some code) : (a, code) ∈ table := by
  obtain ⟨before, after, rfl, -⟩ := List.lookup_eq_some_iff.mp h
  exact List.mem_append_right before List.mem_cons_self

theorem exists_of_ofText? {text : String} {code : UInt8} (h : ofText? text = some code) :
    ∃ c, text.toList = [c] ∧ (c.toLower, code) ∈ layout := by
  unfold ofText? at h
  split at h
  · rename_i c single
    exact ⟨c, single, mem_of_lookup h⟩
  · cases h

variable {key other : HostKey} {code : UInt8}

theorem toLower_idem (c : Char) : c.toLower.toLower = c.toLower := by
  delta Char.toLower
  split <;> grind [UInt32.toNat_add]

theorem code?_folded (key : HostKey) : key.folded.code? = key.code? := by
  cases key with
  | named | unidentified => rfl
  | character text =>
    simp only [folded, code?, ofText?, String.toList_map]
    cases text.toList with
    | nil => rfl
    | cons c rest =>
      cases rest with
      | nil => simp only [List.map_cons, List.map_nil, toLower_idem]
      | cons => rfl

theorem code?_eq_of_folded (same : other.folded = key.folded) : other.code? = key.code? := by
  rw [← code?_folded other, same, code?_folded]

theorem toNat_lt_of_code? (h : key.code? = some code) : code.toNat < 16 := by
  have characters : ∀ entry ∈ layout, entry.2.toNat < 16 := by decide
  have names : ∀ entry ∈ namedLayout, entry.2.toNat < 16 := by decide
  cases key with
  | character text =>
    obtain ⟨c, -, mem⟩ := exists_of_ofText? h
    exact characters _ mem
  | named name => exact names _ (mem_of_lookup h)
  | unidentified => cases h

/-- A code that no named key has is the code of one character, which may be in either case. -/
theorem exists_folded_of_code? (single : code ∉ doubled) (h : key.code? = some code) :
    ∃ c, (c, code) ∈ layout ∧ key.folded = character (String.singleton c) := by
  cases key with
  | character text =>
    obtain ⟨c, written, mem⟩ := exists_of_ofText? h
    refine ⟨c.toLower, mem, congrArg character (String.ext ?_)⟩
    rw [String.toList_map, written, String.toList_singleton]
    rfl
  | named name => exact absurd (List.mem_map_of_mem (mem_of_lookup h)) single
  | unidentified => cases h

theorem folded_eq_of_code? (single : code ∉ doubled) (h : key.code? = some code)
    (ho : other.code? = some code) : other.folded = key.folded := by
  have distinct : ∀ first ∈ layout, ∀ second ∈ layout, first.2 = second.2 → first = second := by
    decide
  obtain ⟨c, hc, written⟩ := exists_folded_of_code? single h
  obtain ⟨d, hd, otherwise⟩ := exists_folded_of_code? single ho
  have same : d = c := congrArg Prod.fst (distinct _ hd _ hc rfl)
  rw [written, otherwise, same]

end HostKey

namespace Message

def reads : Message → Bool
  | .filePicked (some ⟨_, .ok _⟩) _ => true
  | _ => false

def mute : Message → Bool
  | .keyPressed key | .keyReleased key => key.code?.isNone
  | _ => false

def Presses (key : HostKey) : Message → Prop
  | .keyPressed other => other.folded = key.folded
  | _ => False

def Tells (key : HostKey) : Message → Prop
  | .keyPressed other | .keyReleased other => other.folded = key.folded
  | _ => False

def Clears (code : UInt8) : Message → Prop
  | .keyReleased key => key.code? = some code
  | _ => False

def Sets (code : UInt8) : Message → Prop
  | .keyPressed key => key.code? = some code
  | _ => False

/-- A message of the kind has been given, and none that is against it since then. -/
def Standing (kind against : Message → Prop) (messages : List Message) : Prop :=
  ∃ before message after, messages = before ++ message :: after ∧ kind message ∧
    ∀ later ∈ after, ¬against later

variable {kind against : Message → Prop} {messages : List Message} {message : Message}
  {key : HostKey} {code : UInt8}

theorem not_standing_nil : ¬Standing kind against [] := by
  rintro ⟨before, message, after, h, -⟩
  exact List.append_ne_nil_of_right_ne_nil before (List.cons_ne_nil message after) h.symm

theorem standing_concat : Standing kind against (messages ++ [message]) ↔
    kind message ∨ ¬against message ∧ Standing kind against messages := by
  constructor
  · rintro ⟨before, found, after, split, hk, unopposed⟩
    cases after using List.reverseRecOn with
    | nil =>
      obtain ⟨-, same⟩ := List.append_inj' split rfl
      obtain rfl : message = found := List.singleton_inj.mp same
      exact Or.inl hk
    | append_singleton after last =>
      rw [← List.cons_append, ← List.append_assoc] at split
      obtain ⟨rfl, same⟩ := List.append_inj' split rfl
      obtain rfl : message = last := List.singleton_inj.mp same
      refine Or.inr ⟨unopposed message (by simp), before, found, after, rfl, hk, ?_⟩
      intro later hl
      exact unopposed later (List.mem_append_left _ hl)
  · rintro (hk | ⟨silent, before, found, after, rfl, hk, unopposed⟩)
    · exact ⟨messages, message, [], rfl, hk, by simp⟩
    · refine ⟨before, found, after ++ [message], by simp, hk, ?_⟩
      intro later hl
      rcases List.mem_append.mp hl with earlier | last
      · exact unopposed later earlier
      · rwa [List.mem_singleton.mp last]

/-- The last that was heard of the key, after the last file that was read, is that it was pressed. -/
def Held (messages : List Message) (key : HostKey) : Prop :=
  Standing (Presses key) (fun message => message.reads = true ∨ message.Tells key) messages

def Dropped (messages : List Message) (key : HostKey) (code : UInt8) : Prop :=
  Standing (Clears code) (Tells key) messages

theorem sets_of_presses (hc : key.code? = some code) (h : message.Presses key) :
    message.Sets code := by
  cases message with
  | keyPressed other => exact (HostKey.code?_eq_of_folded h).trans hc
  | _ => cases h

theorem tells_of_presses (h : message.Presses key) : message.Tells key := by
  cases message with
  | keyPressed other => exact h
  | _ => cases h

theorem not_clears_of_sets (h : message.Sets code) : ¬message.Clears code := by
  cases message with
  | keyPressed other => exact not_false
  | _ => cases h

theorem sets_or_clears_of_tells (hc : key.code? = some code) (h : message.Tells key) :
    message.Sets code ∨ message.Clears code := by
  cases message with
  | keyPressed other => exact Or.inl ((HostKey.code?_eq_of_folded h).trans hc)
  | keyReleased other => exact Or.inr ((HostKey.code?_eq_of_folded h).trans hc)
  | _ => cases h

theorem tells_of_clears (single : code ∉ HostKey.doubled) (hc : key.code? = some code)
    (h : message.Clears code) : message.Tells key := by
  cases message with
  | keyReleased other => exact HostKey.folded_eq_of_code? single hc h
  | _ => cases h

theorem not_dropped_of_held (single : code ∉ HostKey.doubled) (hc : key.code? = some code)
    (held : Held messages key) : ¬Dropped messages key code := by
  induction messages using List.reverseRecOn with
  | nil => exact not_standing_nil
  | append_singleton messages message ih =>
    intro dropped
    rcases standing_concat.mp held with presses | ⟨silent, before⟩
    · rcases standing_concat.mp dropped with clears | ⟨untold, -⟩
      · exact not_clears_of_sets (sets_of_presses hc presses) clears
      · exact untold (tells_of_presses presses)
    · have untold : ¬message.Tells key := fun tells => silent (Or.inr tells)
      rcases standing_concat.mp dropped with clears | ⟨-, still⟩
      · exact untold (tells_of_clears single hc clears)
      · exact ih before still

def Kept (messages : List Message) (code : UInt8) : Prop :=
  ∃ key, key.code? = some code ∧ Held messages key ∧ ¬Dropped messages key code

theorem kept_of_sets (messages : List Message) (sets : message.Sets code) :
    Kept (messages ++ [message]) code := by
  cases message with
  | keyPressed key =>
    refine ⟨key, sets, standing_concat.mpr (Or.inl rfl), ?_⟩
    intro dropped
    rcases standing_concat.mp dropped with clears | ⟨untold, -⟩
    · cases clears
    · exact untold rfl
  | _ => cases sets

theorem kept_concat : Kept (messages ++ [message]) code ↔
    message.Sets code ∨ ¬(message.reads = true ∨ message.Clears code) ∧ Kept messages code := by
  constructor
  · rintro ⟨key, hc, held, undropped⟩
    rcases standing_concat.mp held with presses | ⟨silent, before⟩
    · exact Or.inl (sets_of_presses hc presses)
    · refine Or.inr ⟨?_, key, hc, before, ?_⟩
      · rintro (reads | clears)
        · exact silent (Or.inl reads)
        · exact undropped (standing_concat.mpr (Or.inl clears))
      · intro dropped
        have untold : ¬message.Tells key := fun tells => silent (Or.inr tells)
        exact undropped (standing_concat.mpr (Or.inr ⟨untold, dropped⟩))
  · rintro (sets | ⟨silent, key, hc, held, undropped⟩)
    · exact kept_of_sets messages sets
    · by_cases sets : message.Sets code
      · exact kept_of_sets messages sets
      have uncleared : ¬message.Clears code := fun clears => silent (Or.inr clears)
      have untold : ¬message.Tells key := by
        intro tells
        rcases sets_or_clears_of_tells hc tells with pressed | released
        · exact sets pressed
        · exact uncleared released
      refine ⟨key, hc, standing_concat.mpr (Or.inr ⟨?_, held⟩), ?_⟩
      · rintro (reads | tells)
        · exact silent (Or.inl reads)
        · exact untold tells
      · intro dropped
        rcases standing_concat.mp dropped with clears | ⟨-, before⟩
        · exact uncleared clears
        · exact undropped before

end Message

namespace Window

variable {w : Window} {message : Message} {code : UInt8}

theorem isPressed_setKey (w : Window) (key : HostKey) (down : Bool) (code : UInt8) :
    (w.setKey key down).keypad.isPressed code =
      if key.code? = some code then down else w.keypad.isPressed code := by
  unfold setKey
  split
  · rename_i other hc
    simp [Keypad.isPressed_set, hc, HostKey.toNat_lt_of_code? hc]
  · rename_i hc
    simp [hc]

theorem keypad_load_of_ok {file : PickedFile} {rom : Rom} (read : file.contents = .ok rom)
    (w : Window) (entropy : ChaCha.Key) :
    (w.load file entropy).window.keypad = w.keypad.releaseAll := by
  rcases Nat.lt_or_ge Rom.limit rom.size with large | fits
  · rw [load_of_lt read large]
  · rw [load_of_le read fits]

theorem isPressed_update (w : Window) (message : Message) (code : UInt8) :
    (w.update message).window.keypad.isPressed code = true ↔
      message.Sets code ∨
        ¬(message.reads = true ∨ message.Clears code) ∧ w.keypad.isPressed code = true := by
  cases message with
  | tick now => simp [update_tick, Message.Sets, Message.Clears, Message.reads]
  | keyPressed key =>
    simp [update, isPressed_setKey, Message.Sets, Message.Clears, Message.reads]
  | keyReleased key =>
    simp [update, isPressed_setKey, Message.Sets, Message.Clears, Message.reads]
  | fileWanted => simp [update, Message.Sets, Message.Clears, Message.reads]
  | filePicked file? entropy =>
    cases file? with
    | none => simp [update, Message.Sets, Message.Clears, Message.reads]
    | some file =>
      obtain ⟨path, contents⟩ := file
      cases contents with
      | error e => simp [update, load_of_error, Message.Sets, Message.Clears, Message.reads]
      | ok rom => simp [update, keypad_load_of_ok, Message.Sets, Message.Clears, Message.reads]

theorem pressed_follow_iff (entropy : ChaCha.Key) (messages : List Message) (code : UInt8) :
    code ∈ ((initial entropy).follow messages).keypad.pressed ↔ Message.Kept messages code := by
  rw [Keypad.mem_pressed]
  induction messages using List.reverseRecOn with
  | nil =>
    have empty : ((initial entropy).follow []).keypad.isPressed code = false :=
      Keypad.isPressed_releaseAll {} code
    constructor
    · intro pressed
      rw [empty] at pressed
      cases pressed
    · rintro ⟨key, -, held, -⟩
      exact absurd held Message.not_standing_nil
  | append_singleton messages message ih =>
    rw [follow_concat, isPressed_update, ih, Message.kept_concat]

theorem update_of_mute (h : message.mute = true) (w : Window) :
    (w.update message).window = w := by
  cases message with
  | keyPressed key | keyReleased key =>
    have unmapped : key.code? = none := Option.isNone_iff_eq_none.mp h
    simp only [update, setKey, unmapped]
  | _ => cases h

theorem follow_filter_mute (w : Window) (messages : List Message) :
    w.follow (messages.filter fun message => !message.mute) = w.follow messages := by
  induction messages generalizing w with
  | nil => rfl
  | cons message rest ih =>
    cases h : message.mute with
    | true =>
      rw [List.filter_cons_of_neg (by simp [h]), ih]
      exact congrArg (follow · rest) (update_of_mute h w).symm
    | false =>
      rw [List.filter_cons_of_pos (by simp [h])]
      exact ih (w.update message).window

theorem held_keys_seen_unless_dropped (entropy : ChaCha.Key) (messages : List Message) :
    let w := (initial entropy).follow messages
    (∀ code, code ∈ w.keypad.pressed ↔ ∃ key : HostKey, key.code? = some code ∧
      Message.Held messages key ∧ ¬Message.Dropped messages key code) ∧
    (∀ code, code ∉ HostKey.doubled →
      (code ∈ w.keypad.pressed ↔
        ∃ key : HostKey, key.code? = some code ∧ Message.Held messages key)) ∧
    (initial entropy).follow (messages.filter fun message => !message.mute) = w := by
  intro w
  refine ⟨pressed_follow_iff entropy messages, ?_, follow_filter_mute _ messages⟩
  intro code single
  rw [pressed_follow_iff]
  constructor
  · rintro ⟨key, hc, held, -⟩
    exact ⟨key, hc, held⟩
  · rintro ⟨key, hc, held⟩
    exact ⟨key, hc, held, Message.not_dropped_of_held single hc held⟩

/-- The first key was pressed before the program started. The others come in both cases, one of them
stands for nothing, and a file that cannot be read is picked between them. -/
theorem held_keys_seen_unless_dropped_after_start :
    let entropy : ChaCha.Key := .replicate 8 0
    let messages : List Message := [
      .keyPressed (.character "x"), .filePicked (some ⟨"loop.ch8", .ok ⟨#[0x12, 0x00]⟩⟩) entropy,
      .keyPressed (.character "W"), .keyPressed (.character "q"), .tick 0,
      .filePicked (some ⟨"gone.ch8", .error .notFound⟩) entropy, .keyPressed (.character "p"),
      .keyReleased (.character "Q"), .keyPressed (.named "Enter")]
    let w := (initial entropy).follow messages
    w.keypad.pressed = [0x5, 0xA] ∧
      (∃ key : HostKey, key.code? = some 0x5 ∧ Message.Held messages key) ∧
      (∃ key : HostKey, key.code? = some 0xA ∧ Message.Held messages key) ∧
      (¬∃ key : HostKey, key.code? = some 0x4 ∧ Message.Held messages key) ∧
      (¬∃ key : HostKey, key.code? = some 0x0 ∧ Message.Held messages key) ∧
      (initial entropy).follow (messages.filter fun message => !message.mute) = w := by
  intro entropy messages w
  have pressed : w.keypad.pressed = [0x5, 0xA] := by decide +kernel
  obtain ⟨seen, single, unheard⟩ := held_keys_seen_unless_dropped entropy messages
  refine ⟨pressed, (single 0x5 (by decide)).mp ?_, ?_, ?_, ?_, unheard⟩
  · exact pressed ▸ by decide
  · obtain ⟨key, hc, held, -⟩ := (seen 0xA).mp (pressed ▸ by decide)
    exact ⟨key, hc, held⟩
  · rw [← single 0x4 (by decide)]
    exact pressed ▸ by decide
  · rw [← single 0x0 (by decide)]
    exact pressed ▸ by decide

/-- Enter stays down while another key with its code is pressed and released. -/
theorem held_enter_unseen :
    let messages : List Message := [.keyPressed (.character "z"), .keyPressed (.named "Enter"),
      .keyReleased (.character "z")]
    let w := (initial (.replicate 8 0)).follow messages
    (HostKey.named "Enter").code? = some 0xA ∧ Message.Held messages (.named "Enter") ∧
      ¬(0xA ∈ w.keypad.pressed ↔
        ∃ key : HostKey, key.code? = some 0xA ∧ Message.Held messages key) := by
  intro messages w
  have held : Message.Held messages (.named "Enter") := by
    refine ⟨[.keyPressed (.character "z")], .keyPressed (.named "Enter"),
      [.keyReleased (.character "z")], rfl, rfl, ?_⟩
    simp [Message.reads, Message.Tells, HostKey.folded]
  have mapped : (HostKey.named "Enter").code? = some 0xA := by decide
  have unseen : 0xA ∉ w.keypad.pressed := by decide +kernel
  exact ⟨mapped, held, fun claimed => unseen (claimed.mpr ⟨_, mapped, held⟩)⟩

end Window

end Chip8
