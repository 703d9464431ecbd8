import Chip8.Memory
import Chip8.Random
import Chip8.Scheduler
import Chip8.Settings

/-! The window around a machine: it passes on time and keys, loads programs from files, and
shows the screen and a line on how the machine is doing. Everything that comes from outside is in
the messages, so the same messages always have the same effect. -/

namespace Chip8

inductive HostKey where
  /-- A key that writes text. -/
  | character (text : String)
  /-- A key that goes by a name, such as an arrow. -/
  | named (name : String)
  | unidentified
  deriving DecidableEq, Repr

namespace HostKey

/-- The keypad, four keys in a row, lies on the left four columns of the host's keyboard:

```text
1 2 3 C        1 2 3 4
4 5 6 D        q w e r
7 8 9 E        a s d f
A 0 B F        z x c v
```
-/
def layout : List (Char × UInt8) := [
  ('1', 0x1), ('2', 0x2), ('3', 0x3), ('4', 0xC),
  ('q', 0x4), ('w', 0x5), ('e', 0x6), ('r', 0xD),
  ('a', 0x7), ('s', 0x8), ('d', 0x9), ('f', 0xE),
  ('z', 0xA), ('x', 0x0), ('c', 0xB), ('v', 0xF)]

def namedLayout : List (String × UInt8) :=
  [("ArrowUp", 0xE), ("ArrowDown", 0xF), ("Enter", 0xA)]

/-- The key of the keypad that a text stands for. Only single characters stand for one, and
only for the letters of ASCII is the case of no account. -/
def ofText? (text : String) : Option UInt8 :=
  match text.toList with
  | [c] => layout.lookup c.toLower
  | _ => none

def ofName? (name : String) : Option UInt8 := namedLayout.lookup name

def code? : HostKey → Option UInt8
  | character text => ofText? text
  | named name => ofName? name
  | unidentified => none

end HostKey

structure FileError where
  reason : String
  code : Nat
  deriving DecidableEq, Repr

namespace FileError

def notFound : FileError := ⟨"No such file or directory", 2⟩

def message (e : FileError) : String := e.reason ++ " (os error " ++ toString e.code ++ ")"

end FileError

structure PickedFile where
  path : String
  contents : Except FileError Rom

inductive Message where
  /-- The clock of the window, which counts from an arbitrary instant. -/
  | tick (now : Nat)
  | keyPressed (key : HostKey)
  | keyReleased (key : HostKey)
  /-- The menu entry for picking a program. -/
  | fileWanted
  /-- The end of the dialog, without a file if it was cancelled. The entropy is for the start of
  a machine without a seed. -/
  | filePicked (file : Option PickedFile) (entropy : ChaCha.Key)

inductive KeyboardEvent where
  | pressed (key : HostKey)
  | released (key : HostKey)
  | modifiersChanged
  deriving DecidableEq, Repr

def KeyboardEvent.message? : KeyboardEvent → Option Message
  | pressed key => some (.keyPressed key)
  | released key => some (.keyReleased key)
  | modifiersChanged => none

structure Window where
  scheduler : Scheduler
  keypad : Keypad
  /-- The picture, which is what the screen was when it was shown last. -/
  picture : Screen
  lastTick : Option Nat
  deriving DecidableEq

structure Reply where
  window : Window
  dialog : Bool := false
  log : Log := #[]

namespace Window

def tickInterval : Nat := Time.milliseconds 17

def initial (entropy : ChaCha.Key) : Window where
  scheduler := Scheduler.stop { machine := .blank {} entropy }
  keypad := {}
  picture := .blank
  lastTick := none

def status (w : Window) : String :=
  match w.scheduler.state with
  | .running => ""
  | .stopped => "Pick a rom from the File menu"
  | .halted fault => "Halted: " ++ fault.message

def texts (w : Window) : List String := ["File", w.status]

def publish (w : Window) : Window := { w with picture := w.scheduler.screen }

def elapsed (w : Window) (now : Nat) : Nat :=
  match w.lastTick with
  | none => tickInterval
  | some last => now - last

def stretchTo (w : Window) (now : Nat) : Stretch :=
  w.scheduler.advance w.keypad.input (w.elapsed now)

/-- A fault needs no care here: it is in the log and in the status, and what was drawn before
it is shown. -/
def tick (w : Window) (now : Nat) : Reply :=
  let stretch := w.stretchTo now
  { window := { w with scheduler := stretch.scheduler, lastTick := some now }.publish
    log := stretch.log }

def setKey (w : Window) (key : HostKey) (down : Bool) : Window :=
  match key.code? with
  | some code => { w with keypad := w.keypad.set code down }
  | none => w

/-- Starts the program of a file. All keys are released once the file is read, even if its
program turns out to be too large. -/
def load (w : Window) (file : PickedFile) (entropy : ChaCha.Key) : Reply :=
  match file.contents with
  | .error e => { window := w, log := #[.unreadable file.path e.message] }
  | .ok rom =>
    let w := { w with keypad := w.keypad.releaseAll }
    let outcome := w.scheduler.reset rom entropy
    match outcome.fault with
    | none =>
      { window := { w with scheduler := outcome.after, lastTick := none }.publish
        log := outcome.log.push (.running file.path) }
    | some fault =>
      { window := w, log := outcome.log.push (.unloadable file.path fault) }

def update (w : Window) : Message → Reply
  | .tick now => w.tick now
  | .keyPressed key => { window := w.setKey key true }
  | .keyReleased key => { window := w.setKey key false }
  | .fileWanted => { window := w, dialog := true }
  | .filePicked (some file) entropy => w.load file entropy
  | .filePicked none _ => { window := w }

end Window

end Chip8
