/-! What an operation leaves behind: the state after it, the fault that it failed with, and what it
has written to the log. Only some faults end a run, and each of them has its message. -/

namespace Chip8

/-- The digits of `n` in base sixteen, with zeros in front until there are `width` of them.
A number that needs more digits keeps all of them. -/
def hex (width n : Nat) : String :=
  String.ofList (((Nat.toDigits 16 n).map Char.toUpper).leftpad width '0')

inductive Fault where
  | romTooLarge (size limit : Nat)
  | memory (address : UInt16)
  | stackUnderflow
  | stackOverflow (limit : Nat)
  | unknownInstruction (word : UInt16)
  deriving DecidableEq, Repr

namespace Fault

/-- A machine can go on after a word it does not know, since the program counter is past it. -/
def isFatal : Fault → Bool
  | unknownInstruction _ => false
  | _ => true

def message : Fault → String
  | romTooLarge size limit =>
    s!"ROM is too large ({size} bytes), max size is {limit} bytes"
  | memory address =>
    "memory access out of bounds at address 0x" ++ hex 4 address.toNat
  | stackUnderflow =>
    "stack underflow: returned from a subroutine with an empty call stack"
  | stackOverflow limit =>
    s!"stack overflow: more than {limit} nested subroutine calls"
  | unknownInstruction word =>
    "unknown instruction: 0x" ++ hex 4 word.toNat

end Fault

inductive Level where
  | error
  | warn
  | info
  | debug
  | trace
  deriving DecidableEq, Repr

namespace Level

def name : Level → String
  | error => "ERROR"
  | warn => "WARN"
  | info => "INFO"
  | debug => "DEBUG"
  | trace => "TRACE"

def detail : Level → Nat
  | error => 1
  | warn => 2
  | info => 3
  | debug => 4
  | trace => 5

def admits (threshold level : Level) : Bool := level.detail ≤ threshold.detail

end Level

inductive LogEntry where
  /-- A machine was built around a program of this size. -/
  | loaded (size : Nat)
  /-- A machine was put back to its start with a program of this size. -/
  | reloaded (size : Nat)
  /-- The scheduler dropped all debts and runs. -/
  | restarted
  | fetched (word address : UInt16)
  /-- The scheduler goes on at an address in spite of a fault. -/
  | continued (fault : Fault) (address : UInt16)
  | halted (fault : Fault)
  | stopRequested
  | running (path : String)
  | unreadable (path reason : String)
  | unloadable (path : String) (fault : Fault)
  deriving DecidableEq, Repr

namespace LogEntry

def level : LogEntry → Level
  | loaded _ | reloaded _ | restarted | running _ => .info
  | fetched _ _ => .trace
  | continued _ _ => .warn
  | halted _ | unreadable _ _ | unloadable _ _ => .error
  | stopRequested => .debug

def text : LogEntry → String
  | loaded size => s!"loaded a {size} byte rom"
  | reloaded size => s!"reset with a {size} byte rom"
  | restarted => "scheduler restarted"
  | fetched word address => hex 4 word.toNat ++ " at " ++ hex 4 address.toNat
  | continued fault address => fault.message ++ ", continuing at 0x" ++ hex 3 address.toNat
  | halted fault => "halting: " ++ fault.message
  | stopRequested => "stop requested"
  | running path => s!"running {path}"
  | unreadable path reason => s!"could not read {path}: {reason}"
  | unloadable path fault => s!"could not load {path}: " ++ fault.message

def line (entry : LogEntry) : String := entry.level.name ++ " " ++ entry.text

end LogEntry

abbrev Log := Array LogEntry

/-- An operation that fails keeps what it had done until then, so the state afterwards stands
beside the fault and not in its place. -/
structure Outcome (σ : Type) where
  after : σ
  fault : Option Fault := none
  log : Log := #[]

namespace Outcome

def ok {σ : Type} (after : σ) : Outcome σ := { after }

def failed {σ : Type} (after : σ) (fault : Fault) : Outcome σ := { after, fault := some fault }

def map {σ τ : Type} (f : σ → τ) (o : Outcome σ) : Outcome τ := { o with after := f o.after }

end Outcome

end Chip8
