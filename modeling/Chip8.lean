import Chip8.Outcome
import Chip8.Outcome.Lemmas
import Chip8.Settings
import Chip8.Keypad
import Chip8.Memory
import Chip8.Screen
import Chip8.Screen.Lemmas
import Chip8.Random
import Chip8.Instruction
import Chip8.Instruction.Lemmas
import Chip8.Machine
import Chip8.Scheduler
import Chip8.Scheduler.Lemmas
import Chip8.Window
import Chip8.Proofs.Reachable
import Chip8.Proofs.Events
import Chip8.Proofs.Settling
import Chip8.Proofs.Course
import Chip8.Proofs.Slicing
import Chip8.Proofs.Agenda
import Chip8.Proofs.Cycle
import Chip8.Proofs.Frame
import Chip8.Proofs.Bounds
import Chip8.Proofs.Calls
import Chip8.Proofs.Halting
import Chip8.Proofs.FailedStep
import Chip8.Proofs.Disguise
import Chip8.Proofs.Restart
import Chip8.Proofs.Keyboard
import Chip8.Proofs.Noninterference
import Chip8.Proofs.Runs
import Chip8.Proofs.Pieces
import Chip8.Proofs.Ledger
import Chip8.Proofs.Messages
import Chip8.Proofs.Picture
import Chip8.Proofs.Picking
import Chip8.Proofs.Bulk
import Chip8.Proofs.Sprites
import Chip8.Proofs.Draws
import Chip8.Proofs.Held
import Chip8.Proofs.Workload
import Chip8.Proofs.Painting
import Chip8.Proofs.Reads
import Chip8.Proofs.Aliasing
import Chip8.Proofs.Waiting
import Chip8.Proofs.Swapping
import Chip8.Proofs.Countdown
import Chip8.Proofs.Glyphs
import Chip8.Proofs.Chronicle
import Chip8.Proofs.KeyEvents
import Chip8.Proofs.Grammar
