/-!
# The clock

A clock is shared by the cores of a process. It counts nanoseconds from its start and is moved by
whoever owns it; a core that sleeps moves it by the time it sleeps. A clock of real time also moves
by itself: some time passes before each reading.
-/

namespace BlockVM

structure Clock where
  /-- Nanoseconds since the start. -/
  now : Int64 := 0
  /-- How often a core slept. -/
  sleeps : Nat := 0
  /-- How often a core read the clock. -/
  reads : Nat := 0
  /-- Nanoseconds that pass by themselves before each reading. -/
  lapse : Nat → Int64 := fun _ => 0

namespace Clock

def millisecond : Int64 := 1000000

/-- Whole milliseconds since the start. -/
def millis (c : Clock) : Int64 := c.now / millisecond

def advance (c : Clock) (d : Int64) : Clock := { c with now := c.now + d }

def read (c : Clock) : Int64 × Clock :=
  let c := { c.advance (c.lapse c.reads) with reads := c.reads + 1 }
  (c.millis, c)

def sleep (c : Clock) (d : Int64) : Clock := { c.advance d with sleeps := c.sleeps + 1 }

end Clock

end BlockVM
