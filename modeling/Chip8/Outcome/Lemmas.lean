import Chip8.Outcome

/-! How faults and log entries read. Every fault has a message of its own, so a message tells which
fault there was. -/

namespace Chip8

def hexDigit (c : Char) : Nat := if c ≤ '9' then c.toNat - 48 else c.toNat - 55

def readHex (digits : List Char) : Nat := digits.foldl (fun n c => 16 * n + hexDigit c) 0

theorem hexDigit_digitChar : ∀ d < 16, hexDigit (Nat.digitChar d).toUpper = d := by decide

theorem readHex_toDigits (n : Nat) : readHex ((Nat.toDigits 16 n).map Char.toUpper) = n := by
  induction n using Nat.strongRecOn with
  | ind n ih =>
    rw [Nat.toDigits_eq_if (by decide)]
    split
    · rename_i small
      simpa [readHex] using hexDigit_digitChar n small
    · have front := ih (n / 16) (by omega)
      have last := hexDigit_digitChar (n % 16) (Nat.mod_lt n (by decide))
      simp only [readHex] at front ⊢
      rw [List.map_append, List.foldl_append, front, List.map_singleton, List.foldl_cons,
        List.foldl_nil, last]
      omega

theorem readHex_leftpad (width : Nat) (digits : List Char) :
    readHex (digits.leftpad width '0') = readHex digits := by
  have zeros : ∀ k, (List.replicate k '0').foldl (fun n c => 16 * n + hexDigit c) 0 = 0 := by
    intro k
    induction k with
    | zero => rfl
    | succ k ih => exact ih
  rw [readHex, List.leftpad, List.foldl_append, zeros, readHex]

theorem hex_inj {width m n : Nat} : hex width m = hex width n ↔ m = n := by
  constructor
  · intro same
    have digits := congrArg readHex (String.ofList_injective same)
    rwa [readHex_leftpad, readHex_leftpad, readHex_toDigits, readHex_toDigits] at digits
  · intro same
    rw [same]

/-- The lowest digits of a number in base sixteen, as they are written. -/
def hexDigits : (width n : Nat) → List Char
  | 0, _ => []
  | width + 1, n => hexDigits width (n / 16) ++ ["0123456789ABCDEF".toList.getD (n % 16) ' ']

def fourDigits (n : UInt16) : String := .ofList (hexDigits 4 n.toNat)

def threeDigits (n : UInt16) : String :=
  if n < 0x1000 then .ofList (hexDigits 3 n.toNat) else fourDigits n

theorem toUpper_digitChar : ∀ d < 16,
    (Nat.digitChar d).toUpper = "0123456789ABCDEF".toList.getD d ' ' := by decide +kernel

theorem hexDigits_zero (width : Nat) : hexDigits width 0 = List.replicate width '0' := by
  induction width with
  | zero => rfl
  | succ width ih => rw [hexDigits, ih, List.replicate_succ']; rfl

theorem leftpad_toDigits {width n : Nat} (h : (Nat.toDigits 16 n).length ≤ width) :
    ((Nat.toDigits 16 n).map Char.toUpper).leftpad width '0' = hexDigits width n := by
  induction width generalizing n with
  | zero => exact absurd (Nat.le_zero.mp h) (Nat.ne_of_gt Nat.length_toDigits_pos)
  | succ width ih =>
    rw [Nat.toDigits_eq_if (by decide)] at h ⊢
    split
    · rename_i small
      have zero : n / 16 = 0 := Nat.div_eq_of_lt small
      rw [hexDigits, zero, hexDigits_zero, Nat.mod_eq_of_lt small, ← toUpper_digitChar n small]
      simp [List.leftpad]
    · rename_i large
      rw [if_neg large, List.length_append, List.length_singleton] at h
      have front := ih (Nat.le_of_succ_le_succ h)
      have last := toUpper_digitChar (n % 16) (Nat.mod_lt n (by decide))
      rw [hexDigits, ← front, ← last]
      simp [List.leftpad]

theorem hex_four (n : UInt16) : hex 4 n.toNat = fourDigits n := by
  have short : (Nat.toDigits 16 n.toNat).length ≤ 4 :=
    (Nat.length_toDigits_le_iff (by decide) (by decide)).mpr n.toNat_lt
  rw [hex, leftpad_toDigits short, fourDigits]

theorem hex_three (n : UInt16) : hex 3 n.toNat = threeDigits n := by
  unfold threeDigits
  split
  · rename_i small
    have short : (Nat.toDigits 16 n.toNat).length ≤ 3 :=
      (Nat.length_toDigits_le_iff (by decide) (by decide)).mpr (UInt16.lt_iff_toNat_lt.mp small)
    rw [hex, leftpad_toDigits short]
  · rename_i large
    have long : ¬(Nat.toDigits 16 n.toNat).length ≤ 3 := by
      rw [Nat.length_toDigits_le_iff (by decide) (by decide)]
      exact fun small => large (UInt16.lt_iff_toNat_lt.mpr small)
    have padded : 4 - (Nat.toDigits 16 n.toNat).length = 0 := by omega
    have unpadded : 3 - (Nat.toDigits 16 n.toNat).length = 0 := by omega
    rw [← hex_four]
    simp [hex, List.leftpad, padded, unpadded]

theorem fourDigits_inj {m n : UInt16} : fourDigits m = fourDigits n ↔ m = n := by
  rw [← hex_four, ← hex_four, hex_inj, UInt16.toNat_inj]

theorem repr_inj {m n : Nat} : m.repr = n.repr ↔ m = n := by
  constructor
  · intro same
    rw [Nat.repr_eq_ofList_toDigits, Nat.repr_eq_ofList_toDigits] at same
    have values := congrArg (Nat.ofDigitChars 10 · 0) (String.ofList_injective same)
    rwa [Nat.ofDigitChars_ten_toDigits, Nat.ofDigitChars_ten_toDigits] at values
  · intro same
    rw [same]

namespace Fault

/-- A number in a text ends at the blank behind it. -/
theorem repr_append_inj {m n : Nat} {first second : List Char}
    (same : m.repr.toList ++ ' ' :: first = n.repr.toList ++ ' ' :: second) :
    m = n ∧ first = second := by
  have front : ∀ (k : Nat) (rest : List Char),
      (k.repr.toList ++ ' ' :: rest).takeWhile Char.isDigit = k.repr.toList := by
    intro k rest
    have digits : ∀ c ∈ k.repr.toList, c.isDigit = true := by
      intro c hc
      rw [Nat.repr_eq_ofList_toDigits, String.toList_ofList] at hc
      exact Nat.isDigit_of_mem_toDigits (by decide) (by decide) hc
    rw [List.takeWhile_append_of_pos digits, List.takeWhile_cons_of_neg (by decide),
      List.append_nil]
  have numbers := congrArg (List.takeWhile Char.isDigit) same
  rw [front, front] at numbers
  rw [numbers] at same
  exact ⟨repr_inj.mp (String.toList_inj.mp numbers),
    (List.cons.inj (List.append_cancel_left same)).2⟩

def opening : Fault → String
  | romTooLarge _ _ => "ROM is too large ("
  | memory _ => "memory access out of bounds at address 0x"
  | stackUnderflow => "stack underflow: returned from a subroutine with an empty call stack"
  | stackOverflow _ => "stack overflow: more than "
  | unknownInstruction _ => "unknown instruction: 0x"

def details : Fault → String
  | romTooLarge size limit => size.repr ++ (" bytes), max size is " ++ (limit.repr ++ " bytes"))
  | memory address => fourDigits address
  | stackUnderflow => ""
  | stackOverflow limit => limit.repr ++ " nested subroutine calls"
  | unknownInstruction word => fourDigits word

theorem message_eq (fault : Fault) : fault.message = fault.opening ++ fault.details := by
  cases fault with
  | romTooLarge size limit =>
    change "ROM is too large (" ++ size.repr ++ " bytes), max size is " ++ limit.repr ++ " bytes" =
      _
    simp only [opening, details, String.append_assoc]
  | stackOverflow limit =>
    change "stack overflow: more than " ++ limit.repr ++ " nested subroutine calls" = _
    simp only [opening, details, String.append_assoc]
  | stackUnderflow => rfl
  | memory word | unknownInstruction word =>
    rw [details, ← hex_four]
    rfl

/-- Faults of different kinds differ in the first fifteen characters. -/
theorem opening_eq {fault other : Fault} (same : fault.message = other.message) :
    fault.opening = other.opening := by
  have long : ∀ f : Fault, 15 ≤ f.opening.toList.length := by
    intro f
    cases f <;> simp only [opening] <;> decide +kernel
  have starts : ∀ f : Fault, f.message.toList.take 15 = f.opening.toList.take 15 := by
    intro f
    rw [message_eq, String.toList_append, List.take_append_of_le_length (long f)]
  have start := congrArg (fun text => text.toList.take 15) same
  simp only [starts] at start
  cases fault <;> cases other <;> simp only [opening] at start ⊢ <;>
    exact absurd start (by decide +kernel)

theorem eq_of_details {fault other : Fault} (alike : fault.opening = other.opening)
    (same : fault.details = other.details) : fault = other := by
  cases fault with
  | romTooLarge size limit =>
    cases other with
    | romTooLarge size' limit' =>
      have texts := congrArg String.toList same
      simp only [details, String.toList_append] at texts
      obtain ⟨rfl, tail⟩ := repr_append_inj texts
      obtain ⟨rfl, -⟩ := repr_append_inj (List.append_cancel_left tail)
      rfl
    | _ => simp [opening] at alike
  | memory address =>
    cases other with
    | memory address' => rw [fourDigits_inj.mp same]
    | _ => simp [opening] at alike
  | stackUnderflow =>
    cases other with
    | stackUnderflow => rfl
    | _ => simp [opening] at alike
  | stackOverflow limit =>
    cases other with
    | stackOverflow limit' => rw [repr_inj.mp ((String.append_left_inj _).mp same)]
    | _ => simp [opening] at alike
  | unknownInstruction word =>
    cases other with
    | unknownInstruction word' => rw [fourDigits_inj.mp same]
    | _ => simp [opening] at alike

theorem message_inj {fault other : Fault} : fault.message = other.message ↔ fault = other := by
  constructor
  · intro same
    have alike := opening_eq same
    rw [message_eq, message_eq, alike] at same
    exact eq_of_details alike ((String.append_right_inj _).mp same)
  · intro same
    rw [same]

end Fault

namespace LogEntry

theorem line_fetched (word address : UInt16) :
    (fetched word address).line = "TRACE " ++ fourDigits word ++ " at " ++ fourDigits address := by
  have head : "TRACE" ++ " " = "TRACE " := by decide +kernel
  rw [← hex_four, ← hex_four]
  change "TRACE" ++ " " ++ (_ ++ " at " ++ _) = _
  rw [← String.append_assoc, ← String.append_assoc, head]

theorem line_continued (word address : UInt16) :
    (continued (.unknownInstruction word) address).line =
      "WARN unknown instruction: 0x" ++ fourDigits word ++ ", continuing at 0x" ++
        threeDigits address := by
  have head : "WARN" ++ " " ++ "unknown instruction: 0x" = "WARN unknown instruction: 0x" := by
    decide +kernel
  rw [← hex_four, ← hex_three]
  change "WARN" ++ " " ++ ("unknown instruction: 0x" ++ _ ++ ", continuing at 0x" ++ _) = _
  rw [← String.append_assoc, ← String.append_assoc, ← String.append_assoc, head]

theorem line_halted (fault : Fault) :
    (halted fault).line = "ERROR halting: " ++ fault.opening ++ fault.details := by
  have head : "ERROR" ++ " " ++ "halting: " = "ERROR halting: " := by decide +kernel
  change "ERROR" ++ " " ++ ("halting: " ++ fault.message) = _
  rw [Fault.message_eq, ← String.append_assoc, ← String.append_assoc, head]

end LogEntry
def Level.heads (level : Level) (line : String) : Bool :=
  (level.name ++ " ").toList.isPrefixOf line.toList

theorem Level.heads_line (level : Level) (entry : LogEntry) :
    level.heads entry.line = decide (entry.level = level) := by
  simp only [heads, LogEntry.line, String.toList_append, List.append_assoc]
  generalize entry.level = other
  cases level <;> cases other <;> simp [name, List.isPrefixOf]

end Chip8
