/-! The settings a machine is built with; they stay as they are for its whole life. Lengths of time
are natural numbers throughout, and count nanoseconds. -/

namespace Chip8

namespace Time

def second : Nat := 1000000000

def milliseconds (n : Nat) : Nat := n * 1000000

/-- The longest time a debt can hold: the last nanosecond before 2⁶⁴ seconds. -/
def longest : Nat := 18446744073709551616 * second - 1

/-- The time between two events that happen `rate` times a second, rounded down. A rate of zero
counts as one, and a rate above 10⁹ has no time between events at all. -/
def period (rate : Nat) : Nat := second / max rate 1

theorem period_le (rate : Nat) : period rate ≤ second := Nat.div_le_self _ _

theorem period_eq_zero_iff (rate : Nat) : period rate = 0 ↔ second < rate := by
  have positive : max rate 1 ≠ 0 := by omega
  rw [period, Nat.div_eq_zero_iff, or_iff_right positive]
  simp only [second]
  omega

end Time

structure Settings where
  /-- Instruction cycles per second. -/
  clockRate : Nat := 700
  /-- Timer ticks per second. -/
  timerRate : Nat := 60
  /-- The number of subroutine calls that may wait for their return. -/
  stackLimit : Nat := 16
  /-- Makes random bytes repeatable; without it every start draws other bytes. -/
  seed : Option UInt64 := none
  /-- The most time that is made up for after the host was busy elsewhere. -/
  catchUpLimit : Nat := Time.milliseconds 250
  deriving DecidableEq, Repr

namespace Settings

def withClockRate (s : Settings) (rate : Nat) : Settings := { s with clockRate := max rate 1 }

def withTimerRate (s : Settings) (rate : Nat) : Settings := { s with timerRate := max rate 1 }

def withStackLimit (s : Settings) (limit : Nat) : Settings := { s with stackLimit := limit }

def withSeed (s : Settings) (seed : UInt64) : Settings := { s with seed := some seed }

def withCatchUpLimit (s : Settings) (limit : Nat) : Settings :=
  { s with catchUpLimit := limit }

def instructionPeriod (s : Settings) : Nat := Time.period s.clockRate

def timerPeriod (s : Settings) : Nat := Time.period s.timerRate

end Settings

end Chip8
